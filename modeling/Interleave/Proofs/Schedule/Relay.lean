import Interleave.Proofs.PartialOrder.Classes

/-!
# Interleave.Proofs.Schedule.Relay

Programs in which one unit runs as often as wanted before another one is enabled. The state counts
the runs of both; all steps are on one target.

* `relay_offers`, `relay_makes`: what is enabled, and where a step leads.
* `relay_alwaysEnds`, `relay_completes`, `relay_commutes`, `relay_persistent`: runs end, handlers
  complete, no steps are independent, and a unit stays enabled until it is scheduled.
* `relay_schedule`: a schedule in which the first unit makes its last step at the end.
-/

namespace Interleave

/-- Two units on one target. -/
def runners (first second : Bool) : List Candidate :=
  [⟨⟨1⟩, .actor, first, some ⟨.send, ⟨9⟩⟩⟩, ⟨⟨2⟩, .actor, second, some ⟨.send, ⟨9⟩⟩⟩]

/-- Unit 1 runs `n` times and once more, unit 2 twice, but not before unit 1 has run `n` times. The
state counts the runs of both. -/
def relay (n : Nat) : Program (Nat × Nat) where
  fresh := (0, 0)
  start p := .finish p
  units p := runners (decide (p.1 ≤ n)) (decide (n ≤ p.1 ∧ p.2 < 2))
  current _ := none
  execute u p := .finish (if u = ⟨1⟩ then (p.1 + 1, p.2) else (p.1, p.2 + 1))
  hotMonitors _ := []
  label _ u := u.text

section Relay

variable {n : Nat}

theorem relay_units (i j : Nat) :
    (relay n).units (i, j) = runners (decide (i ≤ n)) (decide (n ≤ i ∧ j < 2)) := rfl

theorem relay_offers {p : Nat × Nat} {a : Access} :
    (relay n).Offers p a ↔
      (a.unit = ⟨1⟩ ∧ p.1 ≤ n ∨ a.unit = ⟨2⟩ ∧ n ≤ p.1 ∧ p.2 < 2) ∧ a.target = some ⟨9⟩ := by
  obtain ⟨u, t⟩ := a
  have henabled : u ∈ enabledIds ((relay n).units p) ↔
      u = ⟨1⟩ ∧ p.1 ≤ n ∨ u = ⟨2⟩ ∧ n ≤ p.1 ∧ p.2 < 2 := by
    simp only [relay, runners, enabledIds, List.mem_map, List.mem_filter, List.mem_cons,
      List.not_mem_nil, or_false]
    constructor
    · rintro ⟨c, ⟨rfl | rfl, hc⟩, rfl⟩
      · exact .inl ⟨rfl, of_decide_eq_true hc⟩
      · exact .inr ⟨rfl, of_decide_eq_true hc⟩
    · rintro (⟨rfl, h⟩ | ⟨rfl, h⟩)
      · exact ⟨_, ⟨.inl rfl, decide_eq_true h⟩, rfl⟩
      · exact ⟨_, ⟨.inr rfl, decide_eq_true h⟩, rfl⟩
  have htarget : ∀ v : UnitId, v = ⟨1⟩ ∨ v = ⟨2⟩ →
      PartialOrder.targetOf ((relay n).units p) v = some ⟨9⟩ := by
    rintro _ (rfl | rfl) <;> rfl
  unfold Program.Offers
  rw [henabled]
  refine and_congr_right fun hu => ?_
  rw [htarget u (hu.imp And.left And.left)]

theorem relay_makes {p p' : Nat × Nat} {a : Step} :
    (relay n).Makes p a p' ↔ (relay n).Offers p a.toAccess ∧ a.answers = [] ∧
      p' = if a.unit = ⟨1⟩ then (p.1 + 1, p.2) else (p.1, p.2 + 1) := by
  constructor
  · rintro ⟨hoffers, hfinish⟩
    generalize hanswers : a.answers = es at hfinish
    cases hfinish
    exact ⟨hoffers, rfl, rfl⟩
  · rintro ⟨hoffers, hanswers, rfl⟩
    refine ⟨hoffers, ?_⟩
    rw [hanswers]
    exact .finish _

theorem relay_knows : (relay n).Knows [⟨1⟩, ⟨2⟩] := by
  intro p _ u hu
  rcases (relay_offers.1 (offers_of_enabled hu)).1 with ⟨rfl, _⟩ | ⟨rfl, _⟩ <;> simp

theorem relay_alwaysEnds : (relay n).AlwaysEnds 0 := by
  refine alwaysEnds_of_measure (fun p => (n + 1 - p.1) + (2 - p.2)) fun p u hu => ?_
  show (n + 1 - (if u = ⟨1⟩ then (p.1 + 1, p.2) else (p.1, p.2 + 1)).1) +
    (2 - (if u = ⟨1⟩ then (p.1 + 1, p.2) else (p.1, p.2 + 1)).2) < _
  rcases (relay_offers.1 (offers_of_enabled hu)).1 with ⟨rfl, _⟩ | ⟨rfl, _, _⟩
  · rw [if_pos rfl]
    dsimp only
    omega
  · rw [if_neg (by decide)]
    dsimp only
    omega

theorem relay_completes : (relay n).Completes where
  start := ⟨(0, 0), .finish _⟩
  execute _ _ _ := ⟨_, .finish _⟩

theorem relay_commutes : (relay n).Commutes :=
  commutes_of_target fun ha => (relay_offers.1 ha).2

theorem relay_persistent : (relay n).Persistent := by
  intro p p' a b _ hmakes hb hunit
  obtain ⟨ha, _, rfl⟩ := relay_makes.1 hmakes
  obtain ⟨hb, htarget⟩ := relay_offers.1 hb
  refine relay_offers.2 ⟨?_, htarget⟩
  rcases (relay_offers.1 ha).1 with ⟨hfirst, _⟩ | ⟨hsecond, _⟩
  · rw [if_pos hfirst]
    refine .inr ((hb.resolve_left fun h => hunit (h.1.trans hfirst.symm)).imp_right fun h => ?_)
    exact ⟨Nat.le_succ_of_le h.1, h.2⟩
  · rw [if_neg (by rw [hsecond]; decide)]
    exact .inl (hb.resolve_right fun h => hunit (h.1.trans hsecond.symm))

/-- A step of a relay. -/
def legOf (u : UnitId) : Step := ⟨⟨u, some ⟨9⟩⟩, []⟩

theorem relay_climb : ∀ k ≤ n, (relay n).Path (0, 0) (List.replicate k (legOf ⟨1⟩)) (k, 0) := by
  intro k
  induction k with
  | zero => intro _; exact .nil _
  | succ k ih =>
    intro hk
    rw [List.replicate_succ']
    refine (ih (by omega)).append (.cons (relay_makes.2 ⟨relay_offers.2 ⟨.inl ⟨rfl, ?_⟩, rfl⟩, rfl,
      rfl⟩) (.nil _))
    show k ≤ n
    omega

/-- Unit 2 may make both of its steps before the last one of unit 1. -/
theorem relay_schedule : (relay n).IsSchedule
    ((List.replicate n ⟨1⟩ ++ [⟨2⟩, ⟨2⟩, ⟨1⟩] : List UnitId).map fun u => ⟨u, some ⟨9⟩⟩) := by
  have h₁ : (relay n).Makes (n, 0) (legOf ⟨2⟩) (n, 1) :=
    relay_makes.2 ⟨relay_offers.2 ⟨.inr ⟨rfl, Nat.le_refl n, Nat.zero_lt_two⟩, rfl⟩, rfl, rfl⟩
  have h₂ : (relay n).Makes (n, 1) (legOf ⟨2⟩) (n, 2) :=
    relay_makes.2 ⟨relay_offers.2 ⟨.inr ⟨rfl, Nat.le_refl n, Nat.one_lt_two⟩, rfl⟩, rfl, rfl⟩
  have h₃ : (relay n).Makes (n, 2) (legOf ⟨1⟩) (n + 1, 2) :=
    relay_makes.2 ⟨relay_offers.2 ⟨.inl ⟨rfl, Nat.le_refl n⟩, rfl⟩, rfl, rfl⟩
  refine ⟨[], (0, 0), _, (n + 1, 2), .finish _,
    (relay_climb n (Nat.le_refl n)).append (.cons h₁ (.cons h₂ (.cons h₃ (.nil _)))), ?_, ?_⟩
  · rw [relay_units, decide_eq_false (by omega), decide_eq_false (by omega)]
    rfl
  · simp [legOf]

end Relay

end Interleave
