import Mathlib.Data.Finset.Card
import Interleave.Proofs.Schedule

/-!
# Interleave.Proofs.Schedule.OneShots

Programs whose units run once each. The state is the set of the units that have run; a handler that
finishes adds its unit to it.

* `oneShots_alwaysEnds`, `oneShots_scheduled_once`: each step uses up a unit.
* `oneShots_persistent`, `plainShots_commutes`, `oneShots_commutes_of_target`: steps that do nothing
  else commute; where all units declare one target, no two steps are independent.
-/

namespace Interleave

/-- A unit with the target that it declares. -/
structure OneShot where
  unit : UnitId
  target : UnitId

/-- Units that run once each: `ready` says whether one may, and `handler` what it does then. -/
def oneShots (units : List OneShot) (ready : UnitId → Finset UnitId → Bool)
    (handler : UnitId → Finset UnitId → Handler (Finset UnitId)) : Program (Finset UnitId) where
  fresh := ∅
  start ran := .finish ran
  units ran := units.map fun o =>
    ⟨o.unit, .actor, decide (o.unit ∉ ran) && ready o.unit ran, some ⟨.send, o.target⟩⟩
  current _ := none
  execute := handler
  hotMonitors _ := []
  label _ u := u.text

section OneShots

variable {units : List OneShot} {ready : UnitId → Finset UnitId → Bool}
  {handler : UnitId → Finset UnitId → Handler (Finset UnitId)}

/-- The handlers of one-shot units add their unit when they finish. -/
def AddsUnit (handler : UnitId → Finset UnitId → Handler (Finset UnitId)) : Prop :=
  ∀ u ran, (handler u ran).LeadsTo (· = insert u ran)

theorem Handler.Finishes.of_leadsTo {σ : Type} {C : σ → Prop} {h : Handler σ} {es : List Exchange}
    {p : σ} (hfinish : h.Finishes es p) : h.LeadsTo C → C p := by
  induction hfinish with
  | finish p => exact id
  | ask _ _ ih => exact fun hnext => ih (hnext _)
  | check _ ih => exact fun hnext => ih (hnext _)
  | tell _ ih => exact ih

theorem Handler.LeadsTo.imp {σ : Type} {C D : σ → Prop} (hCD : ∀ p, C p → D p) {h : Handler σ} :
    h.LeadsTo C → h.LeadsTo D := by
  induction h with
  | finish p => exact hCD p
  | abort p => exact id
  | panic message => exact id
  | ask q next ih => exact fun hnext v => ih v (hnext v)
  | check holds message next ih => exact fun hnext b => ih b (hnext b)
  | tell n next ih => exact ih

theorem mem_enabled_oneShots {u : UnitId} {ran : Finset UnitId} :
    u ∈ enabledIds ((oneShots units ready handler).units ran) ↔
      u ∈ units.map OneShot.unit ∧ u ∉ ran ∧ ready u ran = true := by
  simp only [enabledIds, oneShots, List.mem_map, List.mem_filter]
  constructor
  · rintro ⟨_, ⟨⟨o, ho, rfl⟩, henabled⟩, rfl⟩
    exact ⟨⟨o, ho, rfl⟩, by simpa using henabled⟩
  · rintro ⟨⟨o, ho, rfl⟩, hready⟩
    exact ⟨_, ⟨⟨o, ho, rfl⟩, by simpa using hready⟩, rfl⟩

theorem targetOf_oneShots (u : UnitId) (ran : Finset UnitId) :
    PartialOrder.targetOf ((oneShots units ready handler).units ran) u =
      (units.find? fun o => o.unit == u).map OneShot.target := by
  simp only [PartialOrder.targetOf, oneShots, List.find?_map]
  show Option.map _ (Option.bind (Option.map _ (units.find? fun o => o.unit == u)) _) = _
  cases (units.find? fun o => o.unit == u) <;> rfl

theorem oneShots_offers {ran : Finset UnitId} {a : Access} :
    (oneShots units ready handler).Offers ran a ↔
      a.unit ∈ units.map OneShot.unit ∧ a.unit ∉ ran ∧ ready a.unit ran = true ∧
        a.target = (units.find? fun o => o.unit == a.unit).map OneShot.target := by
  unfold Program.Offers
  rw [mem_enabled_oneShots, targetOf_oneShots]
  tauto

theorem oneShots_knows : ∀ {ran : Finset UnitId}, (oneShots units ready handler).Reaches ran →
    ∀ u ∈ enabledIds ((oneShots units ready handler).units ran), u ∈ units.map OneShot.unit :=
  fun _ _ hu => (mem_enabled_oneShots.1 hu).1

theorem oneShots_makes (hadds : AddsUnit handler) {ran ran' : Finset UnitId} {a : Step}
    (h : (oneShots units ready handler).Makes ran a ran') : ran' = insert a.unit ran :=
  h.2.of_leadsTo (hadds a.unit ran)

theorem oneShots_alwaysEnds (hadds : AddsUnit handler) (bound : Nat) :
    (oneShots units ready handler).AlwaysEnds bound := by
  let all := (units.map OneShot.unit).toFinset
  refine alwaysEnds_of_measure (fun ran => (all \ ran).card) fun ran u hu => ?_
  obtain ⟨hunit, hran, _⟩ := mem_enabled_oneShots.1 hu
  have hless : (all \ insert u ran).card < (all \ ran).card := by
    refine Finset.card_lt_card ⟨Finset.sdiff_subset_sdiff subset_rfl (Finset.subset_insert u ran),
      fun hsub => ?_⟩
    have hmem : u ∈ all \ insert u ran :=
      hsub (Finset.mem_sdiff.2 ⟨List.mem_toFinset.2 hunit, hran⟩)
    exact (Finset.mem_sdiff.1 hmem).2 (Finset.mem_insert_self u ran)
  exact (hadds u ran).imp fun ran' heq => by rw [heq]; exact hless

/-- A unit that may run has not run before. -/
theorem oneShots_scheduled_once (hadds : AddsUnit handler) {ran ran' : Finset UnitId}
    {as : List Step} (hpath : (oneShots units ready handler).Path ran as ran') {u : UnitId}
    (hu : u ∉ ran') : u ∉ ran ∧ as.countP (fun b => b.unit == u) = 0 := by
  induction hpath with
  | nil ran => exact ⟨hu, rfl⟩
  | cons hmakes _ ih =>
    obtain ⟨hnot, hcount⟩ := ih hu
    rw [oneShots_makes hadds hmakes, Finset.mem_insert, not_or] at hnot
    refine ⟨hnot.2, ?_⟩
    rw [List.countP_cons_of_neg, hcount]
    simpa using fun heq => hnot.1 heq.symm

theorem oneShots_persistent (hadds : AddsUnit handler) (hready : ∀ u ran, ready u ran = true) :
    (oneShots units ready handler).Persistent := by
  intro ran ran' a b _ hmakes hoffers hunit
  rw [oneShots_makes hadds hmakes]
  obtain ⟨hmem, hran, _, htarget⟩ := oneShots_offers.1 hoffers
  refine oneShots_offers.2 ⟨hmem, ?_, hready _ _, htarget⟩
  rw [Finset.mem_insert, not_or]
  exact ⟨hunit, hran⟩

/-- Where all units declare one target, no steps are independent. -/
theorem oneShots_commutes_of_target {t : UnitId} (ht : ∀ o ∈ units, o.target = t) :
    (oneShots units ready handler).Commutes := by
  refine commutes_of_target (t := t) fun {ran a} ha => ?_
  obtain ⟨hmem, _, _, htarget⟩ := oneShots_offers.1 ha
  rw [htarget]
  cases hfind : units.find? fun o => o.unit == a.unit with
  | none =>
    obtain ⟨o, ho, heq⟩ := List.mem_map.1 hmem
    exact absurd (beq_iff_eq.2 heq) (List.find?_eq_none.1 hfind o ho)
  | some o => exact congrArg some (ht o (List.mem_of_find?_eq_some hfind))

/-- Units that are always ready and whose handlers just finish. -/
abbrev plainShots (units : List OneShot) : Program (Finset UnitId) :=
  oneShots units (fun _ _ => true) fun u ran => .finish (insert u ran)

theorem plainShots_addsUnit :
    AddsUnit fun u ran => Handler.finish (insert u ran) := fun _ _ => rfl

theorem plainShots_makes {ran ran' : Finset UnitId} {a : Step} :
    (plainShots units).Makes ran a ran' ↔
      (plainShots units).Offers ran a.toAccess ∧ a.answers = [] ∧ ran' = insert a.unit ran := by
  constructor
  · rintro ⟨hoffers, hfinish⟩
    generalize hanswers : a.answers = es at hfinish
    cases hfinish
    exact ⟨hoffers, rfl, rfl⟩
  · rintro ⟨hoffers, hanswers, rfl⟩
    refine ⟨hoffers, ?_⟩
    rw [hanswers]
    exact .finish _

theorem plainShots_offers_insert {ran : Finset UnitId} {a : Access} {u : UnitId}
    (hunit : a.unit ≠ u) :
    (plainShots units).Offers (insert u ran) a ↔ (plainShots units).Offers ran a := by
  simp only [oneShots_offers, Finset.mem_insert, not_or, hunit, not_false_eq_true, true_and]

theorem plainShots_commutes : (plainShots units).Commutes := by
  constructor
  · intro ran ran' a b _ hmakes hindep
    rw [(plainShots_makes.1 hmakes).2.2, plainShots_offers_insert hindep.symm.1]
  · intro ran ran₁ ran₂ a b _ ha hb hindep
    obtain ⟨hfirst, hanswers, rfl⟩ := plainShots_makes.1 ha
    obtain ⟨hsecond, hanswers', rfl⟩ := plainShots_makes.1 hb
    refine ⟨_, plainShots_makes.2
        ⟨(plainShots_offers_insert hindep.symm.1).1 hsecond, hanswers', rfl⟩,
      plainShots_makes.2 ⟨(plainShots_offers_insert hindep.1).2 hfirst, hanswers, ?_⟩⟩
    exact Finset.insert_comm _ _ _
  · intro ran ran₁ ran₁' a b _ ha hb hindep
    obtain ⟨hfirst, hanswers, rfl⟩ := plainShots_makes.1 ha
    obtain ⟨hsecond, hanswers', rfl⟩ := plainShots_makes.1 hb
    refine ⟨_, plainShots_makes.2
        ⟨(plainShots_offers_insert hindep.symm.1).2 hsecond, hanswers', rfl⟩,
      plainShots_makes.2 ⟨(plainShots_offers_insert hindep.1).2 hfirst, hanswers, ?_⟩⟩
    exact Finset.insert_comm _ _ _
  · intro ran ran' a b _ _ _
    constructor
    · rintro ⟨_, hfail⟩
      cases hfail
    · rintro ⟨_, hfail⟩
      cases hfail

/-- Units whose handlers make an assertion and finish. -/
abbrev checkedShots (units : List OneShot) (ready holds : UnitId → Finset UnitId → Bool) :
    Program (Finset UnitId) :=
  oneShots units ready fun u ran =>
    .check (holds u ran) "assertion failed" fun _ => .finish (insert u ran)

variable {holds : UnitId → Finset UnitId → Bool}

theorem checkedShots_addsUnit : AddsUnit fun u ran =>
    Handler.check (holds u ran) "assertion failed" fun _ => .finish (insert u ran) :=
  fun _ _ _ => rfl

theorem checkedShots_proper : (checkedShots units ready holds).Proper where
  start := trivial
  execute {ran} _ u _ := by
    show Handler.Proper (.check (holds u ran) _ _)
    cases holds u ran <;> trivial

end OneShots

/-- Two units on one target, and one on another. -/
def threeShots : List OneShot := [⟨⟨1⟩, ⟨9⟩⟩, ⟨⟨2⟩, ⟨9⟩⟩, ⟨⟨3⟩, ⟨8⟩⟩]

end Interleave
