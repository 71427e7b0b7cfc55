import Interleave.Proofs.Schedule

/-!
# Interleave.Proofs.Schedule.Walks

Steps of units as walks down the choice tree of a program, where no step bound applies.

* `Program.Walk`: steps with the exchanges that they consist of.
* `walk_passes`, `breaks_passes`: steps are walks; a step that fails ends the run with the bug.
* `passes_walk`: a walk is made of steps, up to one that fails or is not yet at its end.
* `passes_unsafe`: a walk to a failed assertion has a step that fails.
* `exists_complete`: steps can be continued until no unit is enabled or a step fails.
-/

namespace Interleave

section Walks

variable {σ : Type} {P : Program σ}

/-- Nothing has gone wrong in the session. -/
structure Session.Sane {τ : Type} (s : Session τ) : Prop where
  running : s.halted = false
  clean : s.bug = none

/-- A run has ended with a failed assertion. -/
def EndsUnsafe {τ : Type} (r : Stop σ × Session τ) : Prop :=
  ∃ ending p message, r.1 = .ended ending p ∧ r.2.bug = some ⟨.safety, message⟩

/-- The run between two units; no step bound applies. -/
abbrev Program.between (P : Program σ) (p : σ) (s : Session Unit) : Juncture σ Unit :=
  P.offer (Session.reaches 0) p s

theorem reaches_zero (s : Session Unit) : Session.reaches 0 s = false := rfl

theorem between_of_enabled {p : σ} {s : Session Unit} (hs : s.Sane)
    (h : enabledIds (P.units p) ≠ []) :
    P.between p s = .inl ⟨.scheduling p, { s with offered := P.units p }⟩ := by
  have hempty : ¬ (enabledIds (P.units p)).isEmpty = true := by simpa using h
  simp only [Program.offer, Program.schedule, hs.running, if_neg hempty, reaches_zero]
  rfl

theorem between_of_rest {p : σ} {s : Session Unit} (hs : s.Sane)
    (h : enabledIds (P.units p) = []) : P.between p s = .inr (.ended .quiescent p, s) := by
  simp only [Program.offer, hs.running, h]
  rfl

theorem Session.Sane.record {s : Session Unit} (hs : s.Sane) (x : Place σ)
    (v : (x.request P).Reply) : (s.record P x v).Sane :=
  ⟨by rw [record_halted]; exact hs.running, by rw [record_bug]; exact hs.clean⟩

theorem Session.Sane.offered {s : Session Unit} (hs : s.Sane) (units : List Candidate) :
    Session.Sane { s with offered := units } := ⟨hs.running, hs.clean⟩

theorem Session.Sane.tell {s : Session Unit} (hs : s.Sane) (n : Notice) : (s.tell n).Sane := by
  refine ⟨by rw [tell_halted]; exact hs.running, ?_⟩
  cases n <;> exact hs.clean

theorem Session.Sane.check_true {s : Session Unit} (hs : s.Sane) (message : String) :
    s.check true message = (true, s) := by
  simp [Session.check, hs.running]

theorem Session.Sane.check_false {s : Session Unit} (hs : s.Sane) (message : String) :
    s.check false message = (false, s.recordBug .safety message) := by
  simp [Session.check, hs.running]

/-- After a halt a handler that ends without a panic ends the run with the bug that there is. -/
theorem settle_settles {h : Handler σ} (hsettles : h.Settles) :
    ∀ s : Session Unit, s.halted = true →
      ∃ p s', P.settle (Session.reaches 0) h s = .inr (.ended .halted p, s') ∧ s'.bug = s.bug := by
  induction h with
  | finish p =>
    intro s hs
    exact ⟨p, s, by simp only [Program.settle, Program.offer, if_pos hs], rfl⟩
  | abort p => intro s _; exact ⟨p, s, rfl, rfl⟩
  | panic message => cases hsettles
  | ask q next ih =>
    intro s hs
    simp only [Program.settle, if_pos hs]
    exact ih none hsettles s hs
  | check holds message next ih =>
    intro s hs
    have hcheck : s.check holds message = (false, s) := by simp [Session.check, hs]
    simp only [Program.settle, hcheck]
    exact ih false hsettles s hs
  | tell n next ih =>
    intro s hs
    obtain ⟨p, s', heq, hbug⟩ := ih hsettles (s.tell n) (by simpa using hs)
    refine ⟨p, s', heq, hbug.trans ?_⟩
    cases n <;> rfl

theorem settle_fail {message : String} {next : Bool → Handler σ} (hnext : (next false).Settles)
    {s : Session Unit} (hs : s.Sane) :
    ∃ r, P.settle (Session.reaches 0) (.check false message next) s = .inr r ∧ EndsUnsafe r := by
  obtain ⟨p, s', heq, hbug⟩ := settle_settles (P := P) hnext (s.recordBug .safety message)
    (Session.recordBug_halted _ _ s)
  refine ⟨_, by rw [Program.settle, hs.check_false]; exact heq, .halted, p, message, rfl, ?_⟩
  rw [hbug]
  unfold Session.recordBug
  rw [hs.clean]

theorem take_scheduling (p : σ) (s : Session Unit) (u : UnitId) :
    Pause.take 0 P ⟨.scheduling p, s⟩ u =
      P.settle (Session.reaches 0) (P.execute u p) (s.record P (.scheduling p) u) := rfl

theorem take_question (q : Question) (next : Option q.request.Reply → Handler σ)
    (s : Session Unit) (v : q.request.Reply) :
    Pause.take 0 P ⟨.question q next, s⟩ v =
      P.settle (Session.reaches 0) (next (some v)) (s.record P (.question q next) v) := rfl

theorem settle_ask {q : Question} {next : Option q.request.Reply → Handler σ}
    {s : Session Unit} (hs : s.Sane) :
    P.settle (Session.reaches 0) (.ask q next) s = .inl ⟨.question q next, s⟩ := by
  simp [Program.settle, hs.running]

/-- A handler that finishes is a walk to the next scheduling point. -/
theorem finishes_passes {h : Handler σ} {es : List Exchange} {p : σ} (hfinish : h.Finishes es p) :
    ∀ s : Session Unit, s.Sane → ∃ s', s'.Sane ∧
      (P.settle (Session.reaches 0) h s).Passes 0 P es (P.between p s') := by
  induction hfinish with
  | finish p => intro s hs; exact ⟨s, hs, .nil⟩
  | @ask q next v es p hv _ ih =>
    intro s hs
    obtain ⟨s', hs', hpass⟩ := ih (s.record P (.question q next) v) (hs.record _ _)
    refine ⟨s', hs', ?_⟩
    rw [settle_ask hs]
    refine .cons hv ?_
    rw [take_question]
    exact hpass
  | check _ ih =>
    intro s hs
    rw [Program.settle, hs.check_true]
    exact ih s hs
  | tell _ ih => intro s hs; exact ih _ (hs.tell _)

theorem fails_passes {h : Handler σ} {es : List Exchange} (hfail : h.Fails es) :
    h.Proper → ∀ s : Session Unit, s.Sane → ∃ r, EndsUnsafe r ∧
      (P.settle (Session.reaches 0) h s).Passes 0 P es (.inr r) := by
  induction hfail with
  | here =>
    intro hproper s hs
    obtain ⟨r, heq, hr⟩ := settle_fail (P := P) hproper hs
    exact ⟨r, hr, by rw [heq]; exact .nil⟩
  | @ask q next v es hv _ ih =>
    intro hproper s hs
    obtain ⟨r, hr, hpass⟩ := ih (hproper v hv) (s.record P (.question q next) v) (hs.record _ _)
    refine ⟨r, hr, ?_⟩
    rw [settle_ask hs]
    refine .cons hv ?_
    rw [take_question]
    exact hpass
  | check _ ih =>
    intro hproper s hs
    rw [Program.settle, hs.check_true]
    exact ih hproper s hs
  | tell _ ih => intro hproper s hs; exact ih hproper _ (hs.tell _)

/-- A walk from a handler goes on to the next scheduling point, ends with a failed assertion, or has
got to a question of the handler. -/
theorem passes_handler {h : Handler σ} : h.Proper →
    ∀ {es : List Exchange} {y : Juncture σ Unit} (s : Session Unit), s.Sane →
      (P.settle (Session.reaches 0) h s).Passes 0 P es y →
      (∃ as bs p s', es = as ++ bs ∧ h.Finishes as p ∧ s'.Sane ∧
        (P.between p s').Passes 0 P bs y) ∨
      (h.Fails es ∧ ∃ r, y = .inr r ∧ EndsUnsafe r) ∨
      (accesses es = [] ∧ ∃ q next t, y = .inl ⟨.question q next, t⟩) := by
  induction h with
  | finish p => intro _ es y s hs hpass; exact .inl ⟨[], es, p, s, rfl, .finish p, hs, hpass⟩
  | abort p => intro hproper; cases hproper
  | panic message => intro hproper; cases hproper
  | ask q next ih =>
    intro hproper es y s hs hpass
    rw [settle_ask hs] at hpass
    cases es with
    | nil =>
      cases hpass
      exact .inr (.inr ⟨rfl, q, next, s, rfl⟩)
    | cons e es =>
      obtain ⟨v, hv, rfl, hrest⟩ := hpass.of_inl
      rw [take_question] at hrest
      have hvalue : Exchange.access? ⟨q.request, v⟩ = none := by cases q <;> rfl
      rcases ih (some v) (hproper v hv) _ (hs.record _ _) hrest with
        ⟨as, bs, p, s', rfl, hfinish, hs', hbs⟩ | ⟨hfail, hend⟩ | ⟨hnone, hend⟩
      · exact .inl ⟨_ :: as, bs, p, s', rfl, .ask hv hfinish, hs', hbs⟩
      · exact .inr (.inl ⟨.ask hv hfail, hend⟩)
      · refine .inr (.inr ⟨?_, hend⟩)
        unfold accesses at hnone ⊢
        rw [List.filterMap_cons_none]
        · exact hnone
        · exact hvalue
  | check holds message next ih =>
    intro hproper es y s hs hpass
    cases holds with
    | true =>
      rw [Program.settle, hs.check_true] at hpass
      rcases ih true hproper s hs hpass with
        ⟨as, bs, p, s', rfl, hfinish, hs', hbs⟩ | ⟨hfail, hend⟩ | hquestion
      · exact .inl ⟨as, bs, p, s', rfl, .check hfinish, hs', hbs⟩
      · exact .inr (.inl ⟨.check hfail, hend⟩)
      · exact .inr (.inr hquestion)
    | false =>
      obtain ⟨r, heq, hr⟩ := settle_fail (P := P) hproper hs
      rw [heq] at hpass
      obtain ⟨rfl, rfl⟩ := hpass.of_inr
      exact .inr (.inl ⟨.here, r, rfl, hr⟩)
  | tell n next ih =>
    intro hproper es y s hs hpass
    rcases ih hproper (s.tell n) (hs.tell n) hpass with
      ⟨as, bs, p, s', rfl, hfinish, hs', hbs⟩ | ⟨hfail, hend⟩ | hquestion
    · exact .inl ⟨as, bs, p, s', rfl, .tell hfinish, hs', hbs⟩
    · exact .inr (.inl ⟨.tell hfail, hend⟩)
    · exact .inr (.inr hquestion)

/-- The exchange that schedules a unit. -/
def Program.exchange (P : Program σ) (p : σ) (u : UnitId) : Exchange :=
  ⟨.unit (P.units p) (P.current p), u⟩

/-- The exchanges of a step. -/
def Program.exchanges (P : Program σ) (p : σ) (a : Step) : List Exchange :=
  P.exchange p a.unit :: a.answers

/-- Steps lead from one state to another by these exchanges. -/
inductive Program.Walk (P : Program σ) : σ → List Step → List Exchange → σ → Prop where
  | nil (p : σ) : Walk P p [] [] p
  | cons {p p' q : σ} {a : Step} {as : List Step} {es : List Exchange} : P.Makes p a p' →
      Walk P p' as es q → Walk P p (a :: as) (P.exchanges p a ++ es) q

variable {p p' q : σ} {a : Step} {as : List Step} {es : List Exchange}

theorem Program.Walk.path (h : P.Walk p as es q) : P.Path p as q := by
  induction h with
  | nil p => exact .nil p
  | cons hmakes _ ih => exact .cons hmakes ih

theorem Program.Path.walk (h : P.Path p as q) : ∃ es, P.Walk p as es q := by
  induction h with
  | nil p => exact ⟨[], .nil p⟩
  | cons hmakes _ ih =>
    obtain ⟨es, h⟩ := ih
    exact ⟨_, .cons hmakes h⟩

theorem Handler.Finishes.accesses {h : Handler σ} (hfinish : h.Finishes es p) :
    accesses es = [] := by
  induction hfinish with
  | finish p => rfl
  | @ask q next v es p _ _ ih => cases q <;> exact ih
  | check _ ih => exact ih
  | tell _ ih => exact ih

theorem Handler.Fails.accesses {h : Handler σ} (hfail : h.Fails es) : accesses es = [] := by
  induction hfail with
  | here => rfl
  | @ask q next v es _ _ ih => cases q <;> exact ih
  | check _ ih => exact ih
  | tell _ ih => exact ih

theorem accesses_exchanges (hoffers : P.Offers p a.toAccess) (hanswers : accesses a.answers = []) :
    accesses (P.exchanges p a) = [a.toAccess] := by
  have hfirst : (P.exchange p a.unit).access? = some a.toAccess := by
    obtain ⟨⟨u, t⟩, answers⟩ := a
    show some (Access.mk u _) = some ⟨u, t⟩
    rw [show t = _ from hoffers.2]
  unfold accesses at hanswers ⊢
  rw [Program.exchanges, List.filterMap_cons_some hfirst, hanswers]

theorem Program.Makes.accesses (h : P.Makes p a p') :
    accesses (P.exchanges p a) = [a.toAccess] := accesses_exchanges h.1 h.2.accesses

theorem Program.Breaks.accesses (h : P.Breaks p a) :
    accesses (P.exchanges p a) = [a.toAccess] := accesses_exchanges h.1 h.2.accesses

theorem Program.Walk.accesses (h : P.Walk p as es q) : accesses es = as.map Step.toAccess := by
  induction h with
  | nil p => rfl
  | cons hmakes _ ih =>
    rw [accesses_append, hmakes.accesses, ih]
    rfl

/-- A step is a walk to the next scheduling point. -/
theorem makes_passes {s : Session Unit} (hs : s.Sane) (h : P.Makes p a p') :
    ∃ s', s'.Sane ∧ (P.between p s).Passes 0 P (P.exchanges p a) (P.between p' s') := by
  obtain ⟨s', hs', hpass⟩ := finishes_passes (P := P) h.2 _
    ((hs.offered (P.units p)).record (.scheduling p) a.unit)
  refine ⟨s', hs', ?_⟩
  rw [between_of_enabled hs (List.ne_nil_of_mem h.1.1)]
  refine .cons h.1.1 ?_
  rw [take_scheduling]
  exact hpass

theorem walk_passes (h : P.Walk p as es q) : ∀ s : Session Unit, s.Sane →
    ∃ s', s'.Sane ∧ (P.between p s).Passes 0 P es (P.between q s') := by
  induction h with
  | nil p => intro s hs; exact ⟨s, hs, .nil⟩
  | cons hmakes _ ih =>
    intro s hs
    obtain ⟨s₁, hs₁, hfirst⟩ := makes_passes hs hmakes
    obtain ⟨s', hs', hrest⟩ := ih s₁ hs₁
    exact ⟨s', hs', hfirst.append hrest⟩

/-- A step that fails ends the run. -/
theorem breaks_passes (hproper : P.Proper) (hp : P.Reaches p) {s : Session Unit} (hs : s.Sane)
    (h : P.Breaks p a) :
    ∃ r, EndsUnsafe r ∧ (P.between p s).Passes 0 P (P.exchanges p a) (.inr r) := by
  obtain ⟨r, hr, hpass⟩ := fails_passes (P := P) h.2 (hproper.execute hp a.unit h.1.1) _
    ((hs.offered (P.units p)).record (.scheduling p) a.unit)
  refine ⟨r, hr, ?_⟩
  rw [between_of_enabled hs (List.ne_nil_of_mem h.1.1)]
  refine .cons h.1.1 ?_
  rw [take_scheduling]
  exact hpass

/-- How a walk from a scheduling point stops after its last whole step: there, with a step that
fails, or at a question of the handler of a step. -/
inductive Program.StopsAt (P : Program σ) (q : σ) (s : Session Unit) :
    List Exchange → Juncture σ Unit → Prop where
  | here : StopsAt P q s [] (P.between q s)
  | broken {a : Step} {r : Stop σ × Session Unit} : P.Breaks q a → EndsUnsafe r →
      StopsAt P q s (P.exchanges q a) (.inr r)
  | asked {u : UnitId} {es : List Exchange} {question : Question}
      {next : Option question.request.Reply → Handler σ} {t : Session Unit} :
      u ∈ enabledIds (P.units q) → accesses es = [] →
      StopsAt P q s (P.exchange q u :: es) (.inl ⟨.question question next, t⟩)

/-- A walk from a scheduling point is made of steps, as far as it goes. -/
theorem passes_walk (hproper : P.Proper) (hp : P.Reaches p) {s : Session Unit} (hs : s.Sane)
    {y : Juncture σ Unit} (h : (P.between p s).Passes 0 P es y) :
    ∃ as es₁ es₂ q s', es = es₁ ++ es₂ ∧ P.Walk p as es₁ q ∧ s'.Sane ∧ P.StopsAt q s' es₂ y := by
  obtain ⟨n, hn⟩ : ∃ n, es.length ≤ n := ⟨_, Nat.le_refl _⟩
  induction n generalizing p s es with
  | zero =>
    obtain rfl : es = [] := List.length_eq_zero_iff.1 (Nat.le_zero.1 hn)
    rw [h.eq_of_nil]
    exact ⟨[], [], [], p, s, rfl, .nil p, hs, .here⟩
  | succ n ih =>
    cases es with
    | nil =>
      rw [h.eq_of_nil]
      exact ⟨[], [], [], p, s, rfl, .nil p, hs, .here⟩
    | cons e es =>
      by_cases hrest : enabledIds (P.units p) = []
      · rw [between_of_rest hs hrest] at h
        cases h.of_inr.1
      · rw [between_of_enabled hs hrest] at h
        obtain ⟨u, hu, rfl, hrun⟩ := h.of_inl
        rw [take_scheduling] at hrun
        have hoffers : P.Offers p ⟨u, PartialOrder.targetOf (P.units p) u⟩ := offers_of_enabled hu
        rcases passes_handler (hproper.execute hp u hu) _
          ((hs.offered (P.units p)).record (.scheduling p) u) hrun with
          ⟨as, bs, p', s', rfl, hfinish, hs', hbs⟩ | ⟨hfail, r, rfl, hr⟩ |
          ⟨hnone, question, next, t, rfl⟩
        · have hmakes : P.Makes p ⟨⟨u, _⟩, as⟩ p' := ⟨hoffers, hfinish⟩
          obtain ⟨as', es₁, es₂, q, t, rfl, hwalk, ht, hstops⟩ := ih (hp.step hmakes) hs' hbs (by
            simp only [List.length_cons, List.length_append] at hn
            omega)
          refine ⟨_, _, es₂, q, t, ?_, .cons hmakes hwalk, ht, hstops⟩
          simp [Program.exchanges, Program.exchange]
        · exact ⟨[], [], _, p, s, rfl, .nil p, hs,
            .broken (a := ⟨⟨u, _⟩, es⟩) ⟨hoffers, hfail⟩ hr⟩
        · exact ⟨[], [], _, p, s, rfl, .nil p, hs, .asked hu hnone⟩

theorem sane_new : (Session.new () : Session Unit).Sane := ⟨rfl, rfl⟩

/-- A walk from the root goes through the start of the program and then step by step. -/
theorem passes_root (hproper : P.Proper) {y : Juncture σ Unit}
    (h : (P.root 0).Passes 0 P es y) :
    (∃ es₀ es₁ es₂ p₀ as q s, es = es₀ ++ (es₁ ++ es₂) ∧ (P.start P.fresh).Finishes es₀ p₀ ∧
      P.Walk p₀ as es₁ q ∧ s.Sane ∧ P.StopsAt q s es₂ y) ∨
    ((P.start P.fresh).Fails es ∧ ∃ r, y = .inr r ∧ EndsUnsafe r) ∨
    (accesses es = [] ∧ ∃ question next t, y = .inl ⟨.question question next, t⟩) := by
  rcases passes_handler hproper.start _ sane_new h with
    ⟨es₀, fs, p₀, s₀, rfl, hstart, hs₀, hfs⟩ | hfail | hasked
  · obtain ⟨as, es₁, es₂, q, s, rfl, hwalk, hs, hstops⟩ :=
      passes_walk hproper ⟨es₀, p₀, [], hstart, .nil p₀⟩ hs₀ hfs
    exact .inl ⟨es₀, es₁, es₂, p₀, as, q, s, rfl, hstart, hwalk, hs, hstops⟩
  · exact .inr (.inl hfail)
  · exact .inr (.inr hasked)

/-- A walk to a failed assertion goes through the start of the program, which may fail itself, and
steps to one that fails. -/
theorem passes_unsafe (hproper : P.Proper) {r : Stop σ × Session Unit}
    (h : (P.root 0).Passes 0 P es (.inr r)) (hr : EndsUnsafe r) :
    (P.start P.fresh).Fails es ∨
      ∃ es₀ p₀ as q a, (P.start P.fresh).Finishes es₀ p₀ ∧ P.Path p₀ as q ∧ P.Breaks q a := by
  obtain ⟨ending, p, message, _, hbug⟩ := hr
  rcases passes_root hproper h with
    ⟨es₀, es₁, es₂, p₀, as, q, s, _, hstart, hwalk, hs, hstops⟩ | ⟨hfail, _⟩ | ⟨_, _, _, _, heq⟩
  · generalize hy : (Sum.inr r : Juncture σ Unit) = y at hstops
    cases hstops with
    | here =>
      by_cases hrest : enabledIds (P.units q) = []
      · rw [between_of_rest hs hrest] at hy
        cases hy
        cases hs.clean.symm.trans hbug
      · rw [between_of_enabled hs hrest] at hy
        cases hy
    | @broken a _ hbreaks _ => exact .inr ⟨es₀, p₀, as, q, a, hstart, hwalk.path, hbreaks⟩
    | asked _ _ => cases hy
  · exact .inl hfail
  · cases heq

/-- A schedule is complete when no unit is enabled at its end or its last step fails. -/
def Program.Stops (P : Program σ) (q : σ) : Option Step → Prop
  | none => enabledIds (P.units q) = []
  | some a => P.Breaks q a

/-- From each state a complete schedule leads on. -/
theorem exists_complete (hproper : P.Proper) {root : Juncture σ Unit}
    (hfinite : (root.walks 0 P).Finite) {pre : List Exchange} {s : Session Unit} (hs : s.Sane)
    (hpre : root.Passes 0 P pre (P.between p s)) (hp : P.Reaches p) :
    ∃ as q last, P.Path p as q ∧ P.Stops q last := by
  obtain ⟨longest, hlongest⟩ := exists_longest hfinite
  obtain ⟨left, hleft⟩ : ∃ left, longest < left + pre.length := ⟨longest + 1, by omega⟩
  induction left generalizing p pre s with
  | zero =>
    have hle := hlongest _ _ hpre
    omega
  | succ left ih =>
    by_cases hrest : enabledIds (P.units p) = []
    · exact ⟨[], p, none, .nil p, hrest⟩
    · obtain ⟨u, hu⟩ := List.exists_mem_of_ne_nil _ hrest
      obtain ⟨a, _, ⟨p', hmakes⟩ | hbreaks⟩ := exists_step hproper hp (offers_of_enabled hu)
      · obtain ⟨s', hs', hpass⟩ := makes_passes hs hmakes
        obtain ⟨as, q, last, hpath, hstops⟩ := ih hs' (hpre.append hpass) (hp.step hmakes) (by
          rw [List.length_append, Program.exchanges, List.length_cons]
          omega)
        exact ⟨_, q, last, .cons hmakes hpath, hstops⟩
      · exact ⟨[], p, some a, .nil p, hbreaks⟩

end Walks
end Interleave
