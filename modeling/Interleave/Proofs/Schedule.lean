import Interleave.Proofs.PartialOrder.Independence

/-!
# Interleave.Proofs.Schedule

Programs as steps of units, without a scheduler: what a unit does when it is scheduled, from one
state in which a unit is scheduled to the next one. A `Step` is a unit, the target that it declares,
and the answers to the questions of its handler.

* `Program.Makes`, `Program.Breaks`: a step finishes, or fails an assertion.
* `Program.Commutes`, `Program.Persistent`: independent steps commute; a unit stays enabled until it
  is scheduled.
* `commutes_of_target`: where all steps are on one target, none are independent.
* `path_to_front`, `path_past`: an independent step is made before or after a list of others.
-/

namespace Interleave

section Handlers

variable {σ : Type}

namespace Handler

/-- Once the run has been halted, the handler ends without a panic. -/
def Settles : Handler σ → Prop
  | finish _ => True
  | abort _ => True
  | panic _ => False
  | ask _ next => (next none).Settles
  | check _ _ next => (next false).Settles
  | tell _ next => next.Settles

/-- The handler finishes in a state when its questions are answered so. -/
inductive Finishes : Handler σ → List Exchange → σ → Prop where
  | finish (p : σ) : Finishes (.finish p) [] p
  | ask {q : Question} {next : Option q.request.Reply → Handler σ} {v : q.request.Reply}
      {es : List Exchange} {p : σ} : v ∈ q.request.replies → Finishes (next (some v)) es p →
      Finishes (.ask q next) (⟨q.request, v⟩ :: es) p
  | check {message : String} {next : Bool → Handler σ} {es : List Exchange} {p : σ} :
      Finishes (next true) es p → Finishes (.check true message next) es p
  | tell {n : Notice} {next : Handler σ} {es : List Exchange} {p : σ} : Finishes next es p →
      Finishes (.tell n next) es p

/-- The handler fails an assertion when its questions are answered so. -/
inductive Fails : Handler σ → List Exchange → Prop where
  | here {message : String} {next : Bool → Handler σ} : Fails (.check false message next) []
  | ask {q : Question} {next : Option q.request.Reply → Handler σ} {v : q.request.Reply}
      {es : List Exchange} : v ∈ q.request.replies → Fails (next (some v)) es →
      Fails (.ask q next) (⟨q.request, v⟩ :: es)
  | check {message : String} {next : Bool → Handler σ} {es : List Exchange} :
      Fails (next true) es → Fails (.check true message next) es
  | tell {n : Notice} {next : Handler σ} {es : List Exchange} : Fails next es →
      Fails (.tell n next) es

/-- However its questions are answered, the handler finishes or fails an assertion; in the second
case it ends without a panic. -/
def Proper : Handler σ → Prop
  | finish _ => True
  | abort _ => False
  | panic _ => False
  | ask q next => ∀ v ∈ q.request.replies, (next (some v)).Proper
  | check true _ next => (next true).Proper
  | check false _ next => (next false).Settles
  | tell _ next => next.Proper

theorem replies_ne_nil (q : Question) : q.request.replies ≠ [] :=
  List.length_pos_iff.1 (length_replies_pos (by cases q <;> rfl))

/-- Some answers lead a handler to its end. -/
theorem Proper.ends {h : Handler σ} (hproper : h.Proper) :
    (∃ es p, h.Finishes es p) ∨ ∃ es, h.Fails es := by
  induction h with
  | finish p => exact .inl ⟨[], p, .finish p⟩
  | abort p => cases hproper
  | panic message => cases hproper
  | ask q next ih =>
    obtain ⟨v, hv⟩ := List.exists_mem_of_ne_nil _ (replies_ne_nil q)
    rcases ih (some v) (hproper v hv) with ⟨es, p, hfinish⟩ | ⟨es, hfail⟩
    · exact .inl ⟨_, p, .ask hv hfinish⟩
    · exact .inr ⟨_, .ask hv hfail⟩
  | check holds message next ih =>
    cases holds with
    | true =>
      rcases ih true hproper with ⟨es, p, hfinish⟩ | ⟨es, hfail⟩
      · exact .inl ⟨es, p, .check hfinish⟩
      · exact .inr ⟨es, .check hfail⟩
    | false => exact .inr ⟨[], .here⟩
  | tell n next ih =>
    rcases ih hproper with ⟨es, p, hfinish⟩ | ⟨es, hfail⟩
    · exact .inl ⟨es, p, .tell hfinish⟩
    · exact .inr ⟨es, .tell hfail⟩

/-- A handler that finishes without a question is proper. -/
theorem Finishes.proper {h : Handler σ} {p : σ} (hp : h.Finishes [] p) : h.Proper := by
  generalize hes : ([] : List Exchange) = es at hp
  induction hp with
  | finish p => trivial
  | ask _ _ _ => cases hes
  | check _ ih => exact ih hes
  | tell _ ih => exact ih hes

theorem Finishes.not_fails {h : Handler σ} {p : σ} (hp : h.Finishes [] p) {es : List Exchange} :
    ¬ h.Fails es := by
  generalize hnil : ([] : List Exchange) = es' at hp
  induction hp with
  | finish p => intro hfail; cases hfail
  | ask _ _ _ => cases hnil
  | check _ ih =>
    intro hfail
    cases hfail with
    | check hfail => exact ih hnil hfail
  | tell _ ih =>
    intro hfail
    cases hfail with
    | tell hfail => exact ih hnil hfail

/-- A handler that finishes without a question does so however it is called. -/
theorem Finishes.eq_nil {h : Handler σ} {p p' : σ} (hp : h.Finishes [] p) {es : List Exchange}
    (hp' : h.Finishes es p') : es = [] ∧ p' = p := by
  generalize hnil : ([] : List Exchange) = es' at hp
  induction hp with
  | finish p => cases hp'; exact ⟨rfl, rfl⟩
  | ask _ _ _ => cases hnil
  | check _ ih =>
    cases hp' with
    | check hp' => exact ih hp' hnil
  | tell _ ih =>
    cases hp' with
    | tell hp' => exact ih hp' hnil

end Handler
end Handlers

/-- A unit is scheduled, and the questions of its handler are answered. -/
structure Step extends Access where
  answers : List Exchange

namespace Program

variable {σ : Type} (P : Program σ)

/-- A unit may be scheduled, and it declares this target. -/
def Offers (p : σ) (a : Access) : Prop :=
  a.unit ∈ enabledIds (P.units p) ∧ a.target = PartialOrder.targetOf (P.units p) a.unit

/-- A step leads from one state to another. -/
def Makes (p : σ) (a : Step) (p' : σ) : Prop :=
  P.Offers p a.toAccess ∧ (P.execute a.unit p).Finishes a.answers p'

/-- A step fails an assertion. -/
def Breaks (p : σ) (a : Step) : Prop :=
  P.Offers p a.toAccess ∧ (P.execute a.unit p).Fails a.answers

/-- Steps lead from one state to another. -/
inductive Path : σ → List Step → σ → Prop where
  | nil (p : σ) : Path p [] p
  | cons {p p' q : σ} {a : Step} {as : List Step} : P.Makes p a p' → Path p' as q →
      Path p (a :: as) q

/-- A state in which a unit is to be scheduled. -/
def Reaches (p : σ) : Prop := ∃ es p₀ as, (P.start P.fresh).Finishes es p₀ ∧ P.Path p₀ as p

/-- All handlers finish or fail an assertion. -/
structure Proper : Prop where
  start : (P.start P.fresh).Proper
  execute : ∀ {p : σ}, P.Reaches p → ∀ u ∈ enabledIds (P.units p), (P.execute u p).Proper

/-- Independent steps commute, and neither of them enables or disables the other or has an effect
on what the other one asks or asserts. -/
structure Commutes : Prop where
  offers : ∀ {p p' : σ} {a : Step} {b : Access}, P.Reaches p → P.Makes p a p' →
    a.toAccess.Independent b → (P.Offers p b ↔ P.Offers p' b)
  swap : ∀ {p p₁ p₂ : σ} {a b : Step}, P.Reaches p → P.Makes p a p₁ → P.Makes p₁ b p₂ →
    a.toAccess.Independent b.toAccess → ∃ p₁', P.Makes p b p₁' ∧ P.Makes p₁' a p₂
  both : ∀ {p p₁ p₁' : σ} {a b : Step}, P.Reaches p → P.Makes p a p₁ → P.Makes p b p₁' →
    a.toAccess.Independent b.toAccess → ∃ p₂, P.Makes p₁ b p₂ ∧ P.Makes p₁' a p₂
  breaks : ∀ {p p' : σ} {a b : Step}, P.Reaches p → P.Makes p a p' →
    a.toAccess.Independent b.toAccess → (P.Breaks p b ↔ P.Breaks p' b)

/-- A unit that may be scheduled stays so, and keeps its target, until it is scheduled. -/
def Persistent : Prop :=
  ∀ {p p' : σ} {a : Step} {b : Access}, P.Reaches p → P.Makes p a p' → P.Offers p b →
    b.unit ≠ a.unit → P.Offers p' b

end Program

section Paths

variable {σ : Type} {P : Program σ} {p p' q q' : σ} {a b : Step} {as bs : List Step}

theorem offers_unique {x y : Access} (hx : P.Offers p x) (hy : P.Offers p y)
    (hunit : x.unit = y.unit) : x = y := by
  obtain ⟨u, t⟩ := x
  obtain ⟨u', t'⟩ := y
  cases hunit
  have ht : t = _ := hx.2
  have ht' : t' = _ := hy.2
  rw [ht, ht']

theorem offers_of_enabled {u : UnitId} (h : u ∈ enabledIds (P.units p)) :
    P.Offers p ⟨u, PartialOrder.targetOf (P.units p) u⟩ := ⟨h, rfl⟩

/-- Where all steps are on one target, no two of them are independent. -/
theorem commutes_of_target {t : UnitId}
    (ht : ∀ {p : σ} {a : Access}, P.Offers p a → a.target = some t) : P.Commutes := by
  have hdepends : ∀ {p q : σ} {a b : Access}, P.Offers p a → P.Offers q b → ¬ a.Independent b :=
    fun ha hb hindep => hindep.2.2.2 ((ht ha).trans (ht hb).symm)
  constructor
  · intro p p' a b _ hmakes hindep
    exact ⟨fun hb => absurd hindep (hdepends hmakes.1 hb),
      fun hb => absurd hindep (hdepends hmakes.1 hb)⟩
  · intro p p₁ p₂ a b _ ha hb hindep
    exact absurd hindep (hdepends ha.1 hb.1)
  · intro p p₁ p₁' a b _ ha hb hindep
    exact absurd hindep (hdepends ha.1 hb.1)
  · intro p p' a b _ hmakes hindep
    exact ⟨fun hb => absurd hindep (hdepends hmakes.1 hb.1),
      fun hb => absurd hindep (hdepends hmakes.1 hb.1)⟩

namespace Program.Path

theorem append (h : P.Path p as q) (h' : P.Path q bs q') : P.Path p (as ++ bs) q' := by
  induction h with
  | nil p => exact h'
  | cons hmakes _ ih => exact .cons hmakes (ih h')

theorem split : ∀ {p : σ}, P.Path p (as ++ bs) q' → ∃ q, P.Path p as q ∧ P.Path q bs q' := by
  induction as with
  | nil => intro p h; exact ⟨p, .nil p, h⟩
  | cons a as ih =>
    intro p h
    cases h with
    | cons hmakes h =>
      obtain ⟨q, has, hbs⟩ := ih h
      exact ⟨q, .cons hmakes has, hbs⟩

end Program.Path

theorem Program.Reaches.path (h : P.Reaches p) (hpath : P.Path p as q) : P.Reaches q := by
  obtain ⟨es, p₀, bs, hstart, hp⟩ := h
  exact ⟨es, p₀, bs ++ as, hstart, hp.append hpath⟩

theorem Program.Reaches.step (h : P.Reaches p) (hmakes : P.Makes p a p') : P.Reaches p' :=
  h.path (.cons hmakes (.nil p'))

/-- A step that is independent of those before it can be made first. -/
theorem path_to_front (hc : P.Commutes) (hpath : P.Path p as q) (hp : P.Reaches p)
    (hb : P.Makes q b q') (hindep : ∀ x ∈ as, x.toAccess.Independent b.toAccess) :
    ∃ p', P.Makes p b p' ∧ P.Path p' as q' := by
  induction hpath with
  | nil p => exact ⟨q', hb, .nil q'⟩
  | cons hmakes _ ih =>
    obtain ⟨p₁', hb', hrest⟩ := ih (hp.step hmakes) hb
      fun x hx => hindep x (List.mem_cons_of_mem _ hx)
    obtain ⟨p', hfirst, hsecond⟩ := hc.swap hp hmakes hb' (hindep _ List.mem_cons_self)
    exact ⟨p', hfirst, .cons hsecond hrest⟩

/-- A step that fails does so before those that it is independent of. -/
theorem breaks_front (hc : P.Commutes) (hpath : P.Path p as q) (hp : P.Reaches p)
    (hb : P.Breaks q b) (hindep : ∀ x ∈ as, x.toAccess.Independent b.toAccess) :
    P.Breaks p b := by
  induction hpath with
  | nil p => exact hb
  | cons hmakes _ ih =>
    exact (hc.breaks hp hmakes (hindep _ List.mem_cons_self)).2
      (ih (hp.step hmakes) hb fun x hx => hindep x (List.mem_cons_of_mem _ hx))

/-- Steps can be made after one that is independent of them. -/
theorem path_past (hc : P.Commutes) (hpath : P.Path p as q) (hp : P.Reaches p)
    (ha : P.Makes p a p') (hindep : ∀ x ∈ as, a.toAccess.Independent x.toAccess) :
    ∃ q', P.Path p' as q' ∧ P.Makes q a q' := by
  induction hpath generalizing p' with
  | nil p => exact ⟨p', .nil p', ha⟩
  | cons hmakes _ ih =>
    obtain ⟨p₂, ha', hmakes'⟩ := hc.both hp hmakes ha (hindep _ List.mem_cons_self).symm
    obtain ⟨q', hrest, hlast⟩ := ih (hp.step hmakes) ha'
      fun x hx => hindep x (List.mem_cons_of_mem _ hx)
    exact ⟨q', .cons hmakes' hrest, hlast⟩

theorem offers_path (hs : P.Persistent) (hpath : P.Path p as q) (hp : P.Reaches p) {x : Access}
    (hx : P.Offers p x) (hunit : ∀ y ∈ as, x.unit ≠ y.unit) : P.Offers q x := by
  induction hpath with
  | nil p => exact hx
  | cons hmakes _ ih =>
    exact ih (hp.step hmakes) (hs hp hmakes hx (hunit _ List.mem_cons_self))
      fun y hy => hunit y (List.mem_cons_of_mem _ hy)

/-- Where a unit may be scheduled, its handler finishes or fails for some answers. -/
theorem exists_step (hproper : P.Proper) (hp : P.Reaches p) {x : Access} (hx : P.Offers p x) :
    ∃ a : Step, a.toAccess = x ∧ ((∃ p', P.Makes p a p') ∨ P.Breaks p a) := by
  rcases (hproper.execute hp x.unit hx.1).ends with ⟨es, p', hfinish⟩ | ⟨es, hfail⟩
  · exact ⟨⟨x, es⟩, rfl, .inl ⟨p', hx, hfinish⟩⟩
  · exact ⟨⟨x, es⟩, rfl, .inr ⟨hx, hfail⟩⟩

end Paths
end Interleave
