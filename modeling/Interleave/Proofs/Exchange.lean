import Interleave.Proofs.ChoiceTree

/-!
# Interleave.Proofs.Exchange

Walks down the choice tree as lists of exchanges, that is of requests with the replies that were
given to them. Other than the places of the replies, exchanges also tell what was asked, which is
all that a strategy without a view of the program sees of it.

* `Juncture.Passes`: exchanges that lead from one juncture to another.
* `finite_exchanges`: where no execution goes on for ever, there are only finitely many walks.
* `alwaysEnds_of_measure`: steps that use something up are part of no such execution.
-/

namespace Interleave

/-- A request with a reply to it. -/
structure Exchange where
  request : Request
  reply : request.Reply

section Walk

variable {σ : Type} {bound : Nat} {P : Program σ}

/-- Exchanges lead from a juncture to another one. -/
inductive Juncture.Passes (bound : Nat) (P : Program σ) :
    Juncture σ Unit → List Exchange → Juncture σ Unit → Prop where
  | nil {x : Juncture σ Unit} : Passes bound P x [] x
  | cons {a : Pause σ Unit} {v : (a.place.request P).Reply} {es : List Exchange}
      {y : Juncture σ Unit} : v ∈ (a.place.request P).replies →
      Passes bound P (a.take bound P v) es y →
      Passes bound P (.inl a) (⟨a.place.request P, v⟩ :: es) y

namespace Juncture.Passes

theorem unique {x y z : Juncture σ Unit} {es : List Exchange} (h : x.Passes bound P es y)
    (h' : x.Passes bound P es z) : y = z := by
  induction h with
  | nil => cases h'; rfl
  | cons _ _ ih =>
    cases h' with
    | cons _ h' => exact ih h'

theorem append {x y z : Juncture σ Unit} {es fs : List Exchange} (h : x.Passes bound P es y)
    (h' : y.Passes bound P fs z) : x.Passes bound P (es ++ fs) z := by
  induction h with
  | nil => exact h'
  | cons hv _ ih => exact .cons hv (ih h')

theorem split {z : Juncture σ Unit} {es fs : List Exchange} :
    ∀ {x : Juncture σ Unit}, x.Passes bound P (es ++ fs) z →
      ∃ y, x.Passes bound P es y ∧ y.Passes bound P fs z := by
  induction es with
  | nil => intro x h; exact ⟨x, .nil, h⟩
  | cons e es ih =>
    intro x h
    cases h with
    | cons hv h =>
      obtain ⟨y, hes, hfs⟩ := ih h
      exact ⟨y, .cons hv hes, hfs⟩

/-- What follows a walk along the first exchanges. -/
theorem rest {x y z : Juncture σ Unit} {es fs : List Exchange}
    (h : x.Passes bound P (es ++ fs) z) (hes : x.Passes bound P es y) :
    y.Passes bound P fs z := by
  obtain ⟨y', hes', hfs⟩ := h.split
  rwa [hes.unique hes']

theorem eq_of_nil {x y : Juncture σ Unit} (h : x.Passes bound P [] y) : y = x := by
  cases h
  rfl

theorem of_inr {r : Stop σ × Session Unit} {es : List Exchange} {y : Juncture σ Unit}
    (h : Juncture.Passes bound P (.inr r) es y) : es = [] ∧ y = .inr r := by
  cases h
  exact ⟨rfl, rfl⟩

/-- The first exchange answers what is asked. -/
theorem of_inl {a : Pause σ Unit} {e : Exchange} {es : List Exchange} {y : Juncture σ Unit}
    (h : Juncture.Passes bound P (.inl a) (e :: es) y) :
    ∃ v ∈ (a.place.request P).replies, e = ⟨a.place.request P, v⟩ ∧
      (a.take bound P v).Passes bound P es y := by
  cases h with
  | cons hv h => exact ⟨_, hv, rfl, h⟩

/-- A walk from a request to an end has a first exchange. -/
theorem exists_cons {a : Pause σ Unit} {es : List Exchange} {r : Stop σ × Session Unit}
    (h : Juncture.Passes bound P (.inl a) es (.inr r)) :
    ∃ v ∈ (a.place.request P).replies, ∃ fs, es = ⟨a.place.request P, v⟩ :: fs ∧
      (a.take bound P v).Passes bound P fs (.inr r) := by
  cases h with
  | cons hv h => exact ⟨_, hv, _, rfl, h⟩

theorem length_trace {x y : Juncture σ Unit} {es : List Exchange} (h : x.Passes bound P es y) :
    y.session.trace.length = x.session.trace.length + es.length := by
  induction h with
  | nil => rfl
  | @cons a v es y _ _ ih =>
    rw [ih, take_trace, Trace.length_push]
    show a.session.trace.length + 1 + es.length = a.session.trace.length + (es.length + 1)
    omega

end Juncture.Passes

/-- A path of the choice tree is a walk by as many exchanges. -/
theorem passes_of_follow {path : List Nat} : ∀ {x y : Juncture σ Unit},
    x.follow bound P path = some y → ∃ es, es.length = path.length ∧ x.Passes bound P es y := by
  induction path with
  | nil =>
    intro x y h
    rw [follow_nil] at h
    cases h
    exact ⟨[], rfl, .nil⟩
  | cons i path ih =>
    intro x y h
    cases x with
    | inr r => cases h
    | inl a =>
      rw [follow_cons] at h
      obtain ⟨v, hv, h⟩ := Option.bind_eq_some_iff.1 h
      obtain ⟨es, hlength, hes⟩ := ih h
      exact ⟨⟨a.place.request P, v⟩ :: es, congrArg (· + 1) hlength,
        .cons (List.mem_of_getElem? hv) hes⟩

/-- The walks from a juncture. -/
def Juncture.walks (bound : Nat) (P : Program σ) (x : Juncture σ Unit) : Set (List Exchange) :=
  {es | ∃ y, x.Passes bound P es y}

theorem finite_walks_inl {a : Pause σ Unit}
    (h : ∀ v ∈ (a.place.request P).replies, ((a.take bound P v).walks bound P).Finite) :
    (Juncture.walks bound P (.inl a)).Finite := by
  have hunion := (List.finite_toSet (a.place.request P).replies).biUnion fun v hv =>
    (h v hv).image (⟨a.place.request P, v⟩ :: ·)
  refine (hunion.union (Set.finite_singleton [])).subset fun es hes => ?_
  obtain ⟨y, hes⟩ := hes
  cases hes with
  | nil => exact .inr rfl
  | cons hv hes => exact .inl (Set.mem_biUnion hv ⟨_, ⟨_, hes⟩, rfl⟩)

theorem finite_walks_inr (r : Stop σ × Session Unit) :
    (Juncture.walks bound P (.inr r)).Finite := by
  refine (Set.finite_singleton []).subset fun es hes => ?_
  obtain ⟨y, hes⟩ := hes
  exact hes.of_inr.1

/-- No execution goes on for ever: each infinite list of exchanges leaves the tree. -/
def Program.AlwaysEnds (bound : Nat) (P : Program σ) : Prop :=
  ∀ f : Nat → Exchange, ∃ n, ∀ y, ¬ (P.root bound).Passes bound P ((List.range n).map f) y

/-- Were there infinitely many walks, one could go down for ever to places with infinitely many
walks below. -/
theorem finite_exchanges (h : P.AlwaysEnds bound) : ((P.root bound).walks bound P).Finite := by
  by_contra hroot
  let Wide := {x : Juncture σ Unit // ¬ (x.walks bound P).Finite}
  have hstep : ∀ x : Wide, ∃ (e : Exchange) (y : Wide), x.1.Passes bound P [e] y.1 := by
    rintro ⟨x, hx⟩
    cases x with
    | inr r => exact absurd (finite_walks_inr r) hx
    | inl a =>
      by_contra hnone
      refine hx (finite_walks_inl fun v hv => ?_)
      by_contra hwide
      exact hnone ⟨⟨a.place.request P, v⟩, ⟨a.take bound P v, hwide⟩, .cons hv .nil⟩
  choose exchange next hpass using hstep
  let down : Nat → Wide := fun n => next^[n] ⟨P.root bound, hroot⟩
  have hdown : ∀ n, (P.root bound).Passes bound P
      ((List.range n).map fun k => exchange (down k)) (down n).1 := by
    intro n
    induction n with
    | zero => exact .nil
    | succ n ih =>
      rw [List.range_succ, List.map_append]
      have hnext : down (n + 1) = next (down n) := Function.iterate_succ_apply' next n _
      rw [hnext]
      exact ih.append (hpass (down n))
  obtain ⟨n, hn⟩ := h fun k => exchange (down k)
  exact hn _ (hdown n)

/-- The walks of a tree with finitely many of them have a greatest length. -/
theorem exists_longest {x : Juncture σ Unit} (h : (x.walks bound P).Finite) :
    ∃ longest, ∀ es y, x.Passes bound P es y → es.length ≤ longest :=
  ⟨h.toFinset.sup List.length, fun _ y hes => Finset.le_sup (f := List.length)
    (h.mem_toFinset.2 ⟨y, hes⟩)⟩

/-- In all states in which the handler may finish. -/
def Handler.LeadsTo (C : σ → Prop) : Handler σ → Prop
  | .finish p => C p
  | .abort _ => True
  | .panic _ => True
  | .ask _ next => ∀ v, (next v).LeadsTo C
  | .check _ _ next => ∀ holds, (next holds).LeadsTo C
  | .tell _ next => next.LeadsTo C

theorem Handler.leadsTo_of_forall {C : σ → Prop} (hC : ∀ p, C p) (h : Handler σ) : h.LeadsTo C := by
  induction h with
  | finish p => exact hC p
  | abort p => trivial
  | panic message => trivial
  | ask q next ih => exact ih
  | check holds message next ih => exact ih
  | tell n next ih => exact ih

/-- Each infinite list of exchanges leaves the tree below a juncture. -/
def Juncture.Bounded (bound : Nat) (P : Program σ) (x : Juncture σ Unit) : Prop :=
  ∀ f : Nat → Exchange, ∃ n, ∀ y, ¬ x.Passes bound P ((List.range n).map f) y

theorem bounded_inr (r : Stop σ × Session Unit) : Juncture.Bounded bound P (.inr r) := by
  intro f
  refine ⟨1, fun y h => ?_⟩
  cases h.of_inr.1

theorem bounded_inl {a : Pause σ Unit}
    (h : ∀ v ∈ (a.place.request P).replies, (a.take bound P v).Bounded bound P) :
    Juncture.Bounded bound P (.inl a) := by
  intro f
  by_cases hfirst : ∃ v ∈ (a.place.request P).replies, f 0 = ⟨a.place.request P, v⟩
  · obtain ⟨v, hv, hfirst⟩ := hfirst
    obtain ⟨n, hn⟩ := h v hv fun k => f (k + 1)
    refine ⟨n + 1, fun y hpass => hn y ?_⟩
    rw [List.range_succ_eq_map, List.map_cons, List.map_map, hfirst] at hpass
    cases hpass with
    | cons _ hrest => exact hrest
  · refine ⟨1, fun y hpass => hfirst ?_⟩
    obtain ⟨v, hv, heq, _⟩ := Juncture.Passes.of_inl hpass
    exact ⟨v, hv, heq⟩

theorem bounded_settle {C : σ → Prop}
    (hoffer : ∀ p s, C p → (P.offer (Session.reaches bound) p s).Bounded bound P)
    {h : Handler σ} :
    h.LeadsTo C → ∀ s, (P.settle (Session.reaches bound) h s).Bounded bound P := by
  induction h with
  | finish p => exact fun hp s => hoffer p s hp
  | abort p => exact fun _ s => bounded_inr _
  | panic message => exact fun _ s => bounded_inr _
  | ask q next ih =>
    intro hnext s
    simp only [Program.settle]
    split
    · exact ih none (hnext none) s
    · exact bounded_inl fun v _ => ih (some v) (hnext (some v)) _
  | check holds message next ih => exact fun hnext s => ih _ (hnext _) _
  | tell n next ih => exact fun hnext s => ih hnext _

/-- A program each of whose steps uses something up goes on for ever in no execution. -/
theorem alwaysEnds_of_measure (m : σ → Nat)
    (hless : ∀ p, ∀ u ∈ enabledIds (P.units p), (P.execute u p).LeadsTo (m · < m p)) :
    P.AlwaysEnds bound := by
  have hoffer : ∀ k p s, m p < k → (P.offer (Session.reaches bound) p s).Bounded bound P := by
    intro k
    induction k with
    | zero => intro p s hp; cases hp
    | succ k ih =>
      intro p s hp
      simp only [Program.offer, Program.schedule]
      split
      · exact bounded_inr _
      · split
        · exact bounded_inr _
        · split
          · exact bounded_inr _
          · exact bounded_inl fun u hu =>
              bounded_settle (fun p' s' hp' => ih p' s' (by omega)) (hless p u hu) _
  exact bounded_settle (fun p s _ => hoffer (m p + 1) p s (Nat.lt_succ_self _))
    (Handler.leadsTo_of_forall (fun _ => trivial) _) _

end Walk
end Interleave
