import Mathlib.Data.List.Nodup
import Mathlib.Data.Set.Finite.Lattice
import Interleave.Proofs.Pause.Simulation

/-!
# Interleave.Proofs.ChoiceTree

The choice tree of a program under a step bound, told without a strategy. A node is a run at a
request, its children are the replies of the request in their order; a run that has ended is a leaf.
A path lists the places of the replies taken, so that paths are compared lexicographically.

* `Program.along bound P path`: the run after the replies of a path, if it exists.
* `runsTo_consistent`: no run of the tree diverges.
* `finite_along`: a step bound makes the tree finite.
* `path_eq_of_trace_eq`: where the units of each scheduling point are distinct, runs along different
  paths leave different traces.
-/

namespace Interleave

/-- The replies that a request leaves open, in their order. -/
def Request.replies : (r : Request) → List r.Reply
  | .unit candidates _ => enabledIds candidates
  | .boolean _ => [false, true]
  | .integer max => (List.range (alternativesOf max).toNat).map UInt64.ofNat

/-- Whether the choices recorded so far reach the bound. -/
def Session.reaches (bound : Nat) (s : Session Unit) : Bool :=
  boundReached bound s.trace.length

section Tree

variable {σ : Type}

/-- Take a reply at a node. -/
def Pause.take (bound : Nat) (P : Program σ) (a : Pause σ Unit) (v : (a.place.request P).Reply) :
    Juncture σ Unit :=
  P.resume (Session.reaches bound) a.place (.ok v) a.session

/-- The juncture that the replies of a path lead to. -/
def Juncture.follow (bound : Nat) (P : Program σ) : Juncture σ Unit → List Nat →
    Option (Juncture σ Unit)
  | x, [] => some x
  | .inl a, i :: path =>
    (a.place.request P).replies[i]?.bind fun v => Juncture.follow bound P (a.take bound P v) path
  | .inr _, _ :: _ => none

namespace Program

def root (bound : Nat) (P : Program σ) : Juncture σ Unit :=
  P.settle (Session.reaches bound) (P.start P.fresh) (.new ())

/-- The run after the replies of a path. -/
def along (bound : Nat) (P : Program σ) (path : List Nat) : Option (Juncture σ Unit) :=
  (P.root bound).follow bound P path

/-- A path to a leaf, with the end of the run there. -/
def RunsTo (bound : Nat) (P : Program σ) (path : List Nat) (r : Stop σ × Session Unit) : Prop :=
  P.along bound path = some (.inr r)

/-- Paths that lead to a leaf. -/
def IsMaximal (bound : Nat) (P : Program σ) (path : List Nat) : Prop :=
  ∃ r, P.RunsTo bound path r

/-- No unit is enabled twice at a scheduling point of the tree. -/
def DistinctUnits (bound : Nat) (P : Program σ) : Prop :=
  ∀ path p s, P.along bound path = some (.inl ⟨.scheduling p, s⟩) →
    (enabledIds (P.units p)).Nodup

end Program

variable {bound : Nat} {P : Program σ}

@[simp] theorem follow_nil (x : Juncture σ Unit) : x.follow bound P [] = some x := by
  cases x <;> rfl

theorem follow_cons (a : Pause σ Unit) (i : Nat) (path : List Nat) :
    Juncture.follow bound P (.inl a) (i :: path) =
      (a.place.request P).replies[i]?.bind fun v => (a.take bound P v).follow bound P path := rfl

theorem follow_inr {r : Stop σ × Session Unit} {path : List Nat} {y : Juncture σ Unit}
    (h : Juncture.follow bound P (.inr r) path = some y) : path = [] ∧ y = .inr r := by
  cases path with
  | nil =>
    rw [follow_nil] at h
    cases h
    exact ⟨rfl, rfl⟩
  | cons i path => cases h

theorem follow_append (path rest : List Nat) :
    ∀ x : Juncture σ Unit, x.follow bound P (path ++ rest) =
      (x.follow bound P path).bind fun y => y.follow bound P rest := by
  induction path with
  | nil => intro x; simp
  | cons i path ih =>
    intro x
    cases x with
    | inl a =>
      simp only [List.cons_append, follow_cons]
      cases (a.place.request P).replies[i]? with
      | none => rfl
      | some v => exact ih _
    | inr r => rfl

theorem alternativesOf_pos (max : UInt64) : 0 < (alternativesOf max).toNat := by
  unfold alternativesOf
  split
  · decide
  · rename_i hm
    have hm : max.toNat ≠ 0 := fun h => hm (UInt64.toNat_inj.1 h)
    omega

theorem length_replies_pos {r : Request} (h : r.nothingEnabled = false) :
    0 < r.replies.length := by
  cases r with
  | unit candidates current =>
    have h : enabledIds candidates ≠ [] := by simpa [Request.nothingEnabled] using h
    exact List.length_pos_iff.2 h
  | boolean max => exact Nat.zero_lt_two
  | integer max => simpa [Request.replies] using alternativesOf_pos max

theorem nodup_replies_question (q : Question) : q.request.replies.Nodup := by
  have hint : ∀ max : UInt64, (Request.integer max).replies.Nodup := by
    intro max
    refine List.Nodup.map_on ?_ List.nodup_range
    intro i hi j hj hij
    have hlt := (alternativesOf max).toNat_lt
    have hsize : UInt64.size = 2 ^ 64 := rfl
    have hi := List.mem_range.1 hi
    have hj := List.mem_range.1 hj
    have hij := congrArg UInt64.toNat hij
    rw [UInt64.toNat_ofNat_of_lt' (by omega), UInt64.toNat_ofNat_of_lt' (by omega)] at hij
    exact hij
  cases q with
  | boolean max => simp [Request.replies]
  | fairBoolean id => simp [Request.replies]
  | integer max => exact hint max

theorem choice_injective (P : Program σ) (x : Place σ) : Function.Injective (x.choice P) := by
  intro v w h
  cases x with
  | scheduling p => simpa [Place.choice] using h
  | question q next =>
    cases q <;> simpa [Place.choice, Question.choice] using h

/-- The paths that lead on from a juncture. -/
def Juncture.paths (bound : Nat) (P : Program σ) (x : Juncture σ Unit) : Set (List Nat) :=
  {path | (x.follow bound P path).isSome}

theorem finite_paths_inr (r : Stop σ × Session Unit) :
    (Juncture.paths bound P (.inr r)).Finite := by
  refine (Set.finite_singleton []).subset fun path hpath => ?_
  obtain ⟨y, hy⟩ := Option.isSome_iff_exists.1 hpath
  exact (follow_inr hy).1

theorem finite_paths_inl {a : Pause σ Unit}
    (h : ∀ v, ((a.take bound P v).paths bound P).Finite) :
    (Juncture.paths bound P (.inl a)).Finite := by
  have hstep : ∀ i, {path | i :: path ∈ Juncture.paths bound P (.inl a)}.Finite := by
    intro i
    cases hv : (a.place.request P).replies[i]? with
    | none => simp [Juncture.paths, follow_cons, hv]
    | some v => simpa [Juncture.paths, follow_cons, hv] using h v
  have hunion := (Set.finite_lt_nat (a.place.request P).replies.length).biUnion fun i _ =>
    (hstep i).image (i :: ·)
  refine (hunion.union (Set.finite_singleton [])).subset fun path hpath => ?_
  cases path with
  | nil => exact .inr rfl
  | cons i path =>
    refine .inl (Set.mem_biUnion ?_ ⟨path, hpath, rfl⟩)
    obtain ⟨y, hy⟩ := Option.isSome_iff_exists.1 hpath
    rw [follow_cons] at hy
    obtain ⟨v, hv, _⟩ := Option.bind_eq_some_iff.1 hy
    exact (List.getElem?_eq_some_iff.1 hv).1

theorem finite_paths_settle {left : Nat}
    (hoffer : ∀ p s, bound ≤ Trace.length s.trace + left →
      ((P.offer (Session.reaches bound) p s).paths bound P).Finite) (h : Handler σ) :
    ∀ s, bound ≤ Trace.length s.trace + left →
      ((P.settle (Session.reaches bound) h s).paths bound P).Finite := by
  induction h with
  | finish p => exact hoffer p
  | abort p => intro s _; exact finite_paths_inr _
  | panic message => intro s _; exact finite_paths_inr _
  | ask q next ih =>
    intro s hs
    simp only [Program.settle]
    split
    · exact ih none s hs
    · refine finite_paths_inl fun v => ih (some v) _ ?_
      rw [Session.record_trace, Trace.length_push]
      show bound ≤ Trace.length s.trace + 1 + left
      omega
  | check holds message next ih =>
    intro s hs
    exact ih _ _ (by rw [(Session.Framed.check holds message s).trace]; exact hs)
  | tell n next ih =>
    intro s hs
    exact ih _ (by rw [(Session.Framed.tell n s).trace]; exact hs)

/-- By induction on the choices left: each unit scheduled uses one up. -/
theorem finite_paths_offer (hbound : 0 < bound) (left : Nat) :
    ∀ p s, bound ≤ Trace.length s.trace + left →
      ((P.offer (Session.reaches bound) p s).paths bound P).Finite := by
  induction left with
  | zero =>
    intro p s hs
    have hfull : Session.reaches bound s = true := by
      simp only [Session.reaches, boundReached, Bool.and_eq_true, bne_iff_ne, decide_eq_true_eq]
      omega
    simp only [Program.offer, Program.schedule, hfull, if_true]
    repeat' split
    all_goals exact finite_paths_inr _
  | succ left ih =>
    intro p s hs
    simp only [Program.offer, Program.schedule]
    split
    · exact finite_paths_inr _
    · split
      · exact finite_paths_inr _
      · split
        · exact finite_paths_inr _
        · refine finite_paths_inl fun v => finite_paths_settle ih _ _ ?_
          rw [Session.record_trace, Trace.length_push]
          show bound ≤ Trace.length s.trace + 1 + left
          omega

theorem finite_along (hbound : 0 < bound) : {path | (P.along bound path).isSome}.Finite :=
  finite_paths_settle (finite_paths_offer hbound bound) _ _ (by omega)

theorem take_trace (a : Pause σ Unit) (v : (a.place.request P).Reply) :
    (a.take bound P v).session.trace = a.session.trace.push (a.place.choice P v) := by
  unfold Pause.take
  rw [resume_ok, (settle_framed _ P _ _).trace, Session.record_trace]

theorem take_divergence (a : Pause σ Unit) (v : (a.place.request P).Reply) :
    (a.take bound P v).session.divergence = a.session.divergence := by
  unfold Pause.take
  rw [resume_ok, (settle_framed _ P _ _).divergence, Session.record_divergence]

theorem follow_divergence {path : List Nat} :
    ∀ {x y : Juncture σ Unit}, x.follow bound P path = some y →
      y.session.divergence = x.session.divergence := by
  induction path with
  | nil =>
    intro x y h
    rw [follow_nil] at h
    cases h
    rfl
  | cons i path ih =>
    intro x y h
    cases x with
    | inl a =>
      rw [follow_cons] at h
      obtain ⟨v, _, h⟩ := Option.bind_eq_some_iff.1 h
      exact (ih h).trans (take_divergence a v)
    | inr r => cases h

theorem runsTo_consistent {path : List Nat} {r : Stop σ × Session Unit}
    (h : P.RunsTo bound path r) : r.2.divergence = none := by
  have hroot : (P.root bound).session.divergence = none := (settle_framed _ P _ _).divergence
  exact (follow_divergence h).trans hroot

theorem follow_trace {path : List Nat} :
    ∀ {x y : Juncture σ Unit}, x.follow bound P path = some y →
      ∃ cs, y.session.trace.toList = x.session.trace.toList ++ cs := by
  induction path with
  | nil =>
    intro x y h
    rw [follow_nil] at h
    cases h
    exact ⟨[], by simp⟩
  | cons i path ih =>
    intro x y h
    cases x with
    | inl a =>
      rw [follow_cons] at h
      obtain ⟨v, _, h⟩ := Option.bind_eq_some_iff.1 h
      obtain ⟨cs, hcs⟩ := ih h
      exact ⟨a.place.choice P v :: cs, by
        rw [hcs, take_trace]; simp [Juncture.session]⟩
    | inr r => cases h

/-- Where no unit is enabled twice, the trace tells the path. The induction is on the path below
the node that `above` leads to. -/
theorem path_eq_of_trace_eq (hd : P.DistinctUnits bound) {r r' : Stop σ × Session Unit}
    (ht : r.2.trace = r'.2.trace) {path : List Nat} :
    ∀ {above path' : List Nat} {x : Juncture σ Unit}, P.along bound above = some x →
      x.follow bound P path = some (.inr r) → x.follow bound P path' = some (.inr r') →
      path = path' := by
  induction path with
  | nil =>
    intro above path' x _ h h'
    rw [follow_nil] at h
    cases h
    exact (follow_inr h').1.symm
  | cons i path ih =>
    intro above path' x hx h h'
    cases x with
    | inr r => cases h
    | inl a =>
      cases path' with
      | nil => rw [follow_nil] at h'; cases h'
      | cons j path' =>
        have habove : P.along bound (above ++ [i]) = Juncture.follow bound P (.inl a) [i] := by
          unfold Program.along at hx ⊢
          rw [follow_append, hx]
          rfl
        rw [follow_cons] at h h' habove
        obtain ⟨v, hv, hr⟩ := Option.bind_eq_some_iff.1 h
        obtain ⟨w, hw, hr'⟩ := Option.bind_eq_some_iff.1 h'
        have hvw : v = w := by
          obtain ⟨cs, hcs⟩ := follow_trace hr
          obtain ⟨cs', hcs'⟩ := follow_trace hr'
          have hts : r.2.trace.toList = r'.2.trace.toList := by rw [ht]
          change r.2.trace.toList = _ at hcs
          change r'.2.trace.toList = _ at hcs'
          rw [hcs, hcs', take_trace, take_trace] at hts
          simp only [Trace.toList_push, List.append_assoc, List.append_cancel_left_eq] at hts
          exact choice_injective P a.place (List.cons.inj hts).1
        have hnodup : (a.place.request P).replies.Nodup := by
          obtain ⟨x, s⟩ := a
          cases x with
          | scheduling p => exact hd above p s hx
          | question q next => exact nodup_replies_question q
        have hij : i = j :=
          (List.getElem?_inj (List.getElem?_eq_some_iff.1 hv).1 hnodup).1 (by rw [hv, hw, hvw])
        rw [← hvw] at hr'
        rw [hv] at habove
        rw [hij, ih (habove.trans (by simp)) hr hr']

end Tree
end Interleave
