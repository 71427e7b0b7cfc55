import Interleave.Proofs.Pause

/-!
# Interleave.Proofs.Pause.Simulation

What a turn changes, and two runs of one program side by side.

* `settle_keeps`: carrying out a handler keeps what each of its steps keeps.
* `turn_eq_inl`: a run pauses again only after a reply; the reply is recorded, and only the strategy
  has touched its own state and the album.
* `turn_stepBound`, `resume_diverged`: how a run comes to its bound, and what a divergence leaves.
* `Session.Congruent`: a relation of two sessions that carrying out a handler keeps.
* `settle_related`: from related sessions the same handler leads to related junctures. Only the
  decision whether a further unit may be scheduled (`Juncture.Related.schedule`) is left to each
  side.
* `Session.forget`: what a session has recorded, without the strategy and the album of snapshots.
-/

namespace Interleave

section Frame

variable {σ τ : Type}

/-- The session at a juncture. -/
def Juncture.session : Juncture σ τ → Session τ
  | .inl a => a.session
  | .inr r => r.2

/-- Nothing has changed but what a program tells and checks on its own. -/
structure Session.Framed (s t : Session τ) : Prop where
  strategy : t.strategy = s.strategy
  trace : t.trace = s.trace
  album : t.observer.album = s.observer.album
  divergence : t.divergence = s.divergence

namespace Session

@[simp] theorem recordBug_halted (kind : BugKind) (message : String) (s : Session τ) :
    (s.recordBug kind message).halted = true := by
  unfold recordBug
  split <;> rfl

@[simp] theorem fail_halted (refusal : Refusal) (s : Session τ) :
    (s.fail refusal).halted = true := by
  cases refusal <;> simp [fail]

@[simp] theorem tell_halted (n : Notice) (s : Session τ) : (s.tell n).halted = s.halted := by
  cases n <;> rfl

theorem check_halted {holds : Bool} {message : String} {s : Session τ} (h : s.halted = true) :
    (s.check holds message).2.halted = true := by
  simp [check, h]

namespace Framed

theorem refl (s : Session τ) : s.Framed s := ⟨rfl, rfl, rfl, rfl⟩

theorem trans {s t u : Session τ} (h₁ : s.Framed t) (h₂ : t.Framed u) : s.Framed u :=
  ⟨h₂.strategy.trans h₁.strategy, h₂.trace.trans h₁.trace, h₂.album.trans h₁.album,
    h₂.divergence.trans h₁.divergence⟩

theorem recordBug (kind : BugKind) (message : String) (s : Session τ) :
    s.Framed (s.recordBug kind message) := by
  unfold Session.recordBug
  split <;> exact ⟨rfl, rfl, rfl, rfl⟩

theorem check (holds : Bool) (message : String) (s : Session τ) :
    s.Framed (s.check holds message).2 := by
  unfold Session.check
  split
  · exact .refl s
  · split
    · exact .refl s
    · exact .recordBug _ _ _

theorem tell (n : Notice) (s : Session τ) : s.Framed (s.tell n) := by
  cases n <;> exact ⟨rfl, rfl, rfl, rfl⟩

theorem checkRest (fair : Bool) (P : Program σ) (p : σ) (ending : Ending) (s : Session τ) :
    s.Framed (s.checkRest fair P p ending) := by
  unfold Session.checkRest
  split
  · exact .recordBug _ _ s
  · exact .refl s

end Framed
end Session

theorem outcome_trace (S : Strategy τ) (P : Program σ) (p : σ) (ending : Ending)
    (s : Session τ) : (s.outcome S P p ending).trace = s.trace :=
  (Session.Framed.checkRest (S.isFair s.strategy) P p ending s).trace

theorem outcome_steps (S : Strategy τ) (P : Program σ) (p : σ) (ending : Ending)
    (s : Session τ) : (s.outcome S P p ending).steps = S.steps s.strategy :=
  congrArg S.steps (Session.Framed.checkRest (S.isFair s.strategy) P p ending s).strategy

theorem outcome_divergence (S : Strategy τ) (P : Program σ) (p : σ) (ending : Ending)
    (s : Session τ) : (s.outcome S P p ending).divergence = s.divergence :=
  (Session.Framed.checkRest (S.isFair s.strategy) P p ending s).divergence

/-- What offers, checks and tellings keep of a session, it still has at the next request or at the
end of the run. -/
theorem settle_keeps {K : Session τ → Prop}
    (hoffer : ∀ s units, K s → K { s with offered := units })
    (hcheck : ∀ s holds message, K s → K (s.check holds message).2)
    (htell : ∀ s n, K s → K (s.tell n)) (full : Session τ → Bool) (P : Program σ)
    (h : Handler σ) : ∀ s, K s → K (P.settle full h s).session := by
  induction h with
  | finish p =>
    intro s hs
    simp only [Program.settle, Program.offer, Program.schedule]
    repeat' split
    · exact hs
    · exact hs
    · exact hs
    · exact hoffer s _ hs
  | abort p => exact fun s hs => hs
  | panic message => exact fun s hs => hs
  | ask q next ih =>
    intro s hs
    simp only [Program.settle]
    split
    · exact ih none s hs
    · exact hs
  | check holds message next ih => exact fun s hs => ih _ _ (hcheck s holds message hs)
  | tell n next ih => exact fun s hs => ih _ (htell s n hs)

theorem settle_framed (full : Session τ → Bool) (P : Program σ) (h : Handler σ)
    (s : Session τ) : s.Framed (P.settle full h s).session :=
  settle_keeps (K := s.Framed) (fun _ _ h => h.trans ⟨rfl, rfl, rfl, rfl⟩)
    (fun t holds message h => h.trans (.check holds message t)) (fun t n h => h.trans (.tell n t))
    full P h s (.refl s)

theorem settle_of_halted (full : Session τ → Bool) (P : Program σ) (h : Handler σ) :
    ∀ s : Session τ, s.halted = true → ∃ r, P.settle full h s = .inr r := by
  induction h with
  | finish p =>
    intro s hs
    exact ⟨(.ended .halted p, s), by simp only [Program.settle, Program.offer, if_pos hs]⟩
  | abort p => intro s _; exact ⟨_, rfl⟩
  | panic message => intro s _; exact ⟨_, rfl⟩
  | ask q next ih =>
    intro s hs
    simp only [Program.settle, if_pos hs]
    exact ih none s hs
  | check holds message next ih => intro s hs; exact ih _ _ (Session.check_halted hs)
  | tell n next ih => intro s hs; exact ih _ (by simpa using hs)

/-- Where a run waits it has not been halted, and a unit is asked for only where one is enabled,
with all units offered. -/
structure Pause.Open (full : Session τ → Bool) (P : Program σ) (a : Pause σ τ) : Prop where
  running : a.session.halted = false
  scheduling : ∀ p, a.place = .scheduling p →
    (enabledIds (P.units p)).isEmpty = false ∧ full a.session = false ∧
      a.session.offered = P.units p

theorem nothingEnabled_of_open {full : Session τ → Bool} {P : Program σ} {a : Pause σ τ}
    (h : a.Open full P) : (a.place.request P).nothingEnabled = false := by
  obtain ⟨x, s⟩ := a
  cases x with
  | scheduling p => exact (h.scheduling p rfl).1
  | question q next => cases q <;> rfl

theorem settle_open (full : Session τ → Bool) (P : Program σ)
    (hfull : ∀ s units, full { s with offered := units } = full s) (h : Handler σ) :
    ∀ (s : Session τ) (a : Pause σ τ), P.settle full h s = .inl a → a.Open full P := by
  induction h with
  | finish p =>
    intro s a ha
    simp only [Program.settle, Program.offer, Program.schedule] at ha
    split at ha
    · cases ha
    · rename_i hh
      split at ha
      · cases ha
      · rename_i he
        split at ha
        · cases ha
        · rename_i hf
          cases ha
          refine ⟨by simpa using hh, fun q hq => ?_⟩
          cases hq
          exact ⟨by simpa using he, by simpa [hfull] using hf, rfl⟩
  | abort p => intro s a ha; cases ha
  | panic message => intro s a ha; cases ha
  | ask q next ih =>
    intro s a ha
    simp only [Program.settle] at ha
    split at ha
    · exact ih none s a ha
    · rename_i hh
      cases ha
      exact ⟨by simpa using hh, fun q hq => by cases hq⟩
  | check holds message next ih => intro s a ha; exact ih _ _ a ha
  | tell n next ih => intro s a ha; exact ih _ a ha

/-- A run is at its bound where the strategy has got as far as it may. -/
theorem settle_stepBound (full : Session τ → Bool) (P : Program σ) {p : σ} {t : Session τ}
    (h : Handler σ) :
    ∀ s, P.settle full h s = .inr (.ended .stepBound p, t) → full t = true := by
  induction h with
  | finish q =>
    intro s hs
    simp only [Program.settle, Program.offer, Program.schedule] at hs
    split at hs
    · cases hs
    · split at hs
      · cases hs
      · split at hs
        · rename_i hfull
          cases hs
          exact hfull
        · cases hs
  | abort q => intro s hs; cases hs
  | panic message => intro s hs; cases hs
  | ask q next ih =>
    intro s hs
    simp only [Program.settle] at hs
    split at hs
    · exact ih none s hs
    · cases hs
  | check holds message next ih => intro s hs; exact ih _ _ hs
  | tell n next ih => intro s hs; exact ih _ hs

variable {S : Strategy τ} {P : Program σ}

@[simp] theorem resume_ok (full : Session τ → Bool) (x : Place σ) (v : (x.request P).Reply)
    (s : Session τ) :
    P.resume full x (.ok v) s = P.settle full (x.reaction P v) (s.record P x v) := by
  cases x <;> rfl

namespace Session

variable (x : Place σ) (v : (x.request P).Reply) (s : Session τ)

@[simp] theorem record_strategy : (s.record P x v).strategy = s.strategy := by cases x <;> rfl
@[simp] theorem record_observer : (s.record P x v).observer = s.observer := by cases x <;> rfl
@[simp] theorem record_halted : (s.record P x v).halted = s.halted := by cases x <;> rfl
@[simp] theorem record_bug : (s.record P x v).bug = s.bug := by cases x <;> rfl
@[simp] theorem record_divergence : (s.record P x v).divergence = s.divergence := by
  cases x <;> rfl
@[simp] theorem record_trace :
    (s.record P x v).trace = s.trace.push (x.choice P v) := by cases x <;> rfl

end Session

theorem resume_error (full : Session τ → Bool) (x : Place σ) (refusal : Refusal)
    (s : Session τ) : ∃ r, P.resume full x (.error refusal) s = .inr r := by
  cases x with
  | scheduling p => cases refusal <;> exact ⟨_, rfl⟩
  | question q next => exact settle_of_halted full P (next none) _ (by simp)

/-- A refusal leaves the session as it was or fails it, and a handler goes on from there. -/
theorem resume_error_keeps {K : Session τ → Prop} {full : Session τ → Bool}
    (hsettle : ∀ (h : Handler σ) s, K s → K (P.settle full h s).session) (x : Place σ)
    {refusal : Refusal} {s : Session τ} (hs : K s) (hfail : K (s.fail refusal)) :
    K (P.resume full x (.error refusal) s).session := by
  cases x with
  | scheduling p =>
    cases refusal with
    | noEnabledChoice => exact hs
    | exhausted => exact hs
    | diverged step reason => exact hfail
    | liveness v => exact hfail
  | question q next => exact hsettle _ _ hfail

@[simp] theorem Session.fail_strategy (refusal : Refusal) (s : Session τ) :
    (s.fail refusal).strategy = s.strategy := by
  cases refusal with
  | noEnabledChoice => rfl
  | exhausted => rfl
  | diverged step reason => exact (Session.Framed.recordBug _ _ _).strategy
  | liveness v => exact (Session.Framed.recordBug _ _ _).strategy

theorem resume_strategy {full : Session τ → Bool} (x : Place σ)
    (result : Except Refusal (x.request P).Reply) (s : Session τ) :
    (P.resume full x result s).session.strategy = s.strategy := by
  cases result with
  | ok v => rw [resume_ok, (settle_framed _ P _ _).strategy, Session.record_strategy]
  | error refusal =>
    exact resume_error_keeps (K := fun t => t.strategy = s.strategy)
      (fun h t ht => (settle_framed full P h t).strategy.trans ht) x rfl
      (Session.fail_strategy refusal s)

/-- A refusal that is no divergence leaves none behind. -/
theorem resume_divergence {full : Session τ → Bool} (x : Place σ)
    {result : Except Refusal (x.request P).Reply} (s : Session τ)
    (hresult : ∀ step reason, result ≠ .error (.diverged step reason)) :
    (P.resume full x result s).session.divergence = s.divergence := by
  have hfail : ∀ refusal, result = .error refusal → (s.fail refusal).divergence = s.divergence := by
    intro refusal hrefusal
    cases refusal with
    | noEnabledChoice => rfl
    | exhausted => rfl
    | diverged step reason => exact absurd hrefusal (hresult step reason)
    | liveness v => exact (Session.Framed.recordBug _ _ _).divergence
  cases result with
  | ok v => rw [resume_ok, (settle_framed _ P _ _).divergence, Session.record_divergence]
  | error refusal =>
    exact resume_error_keeps (K := fun t => t.divergence = s.divergence)
      (fun h t ht => (settle_framed full P h t).divergence.trans ht) x rfl (hfail refusal rfl)

theorem turn_strategy {a : Pause σ τ} : (a.turn S P).session.strategy = (a.answer S P).state :=
  resume_strategy _ _ _

theorem turn_divergence {a : Pause σ τ}
    (hresult : ∀ step reason, (a.answer S P).result ≠ .error (.diverged step reason)) :
    (a.turn S P).session.divergence = a.session.divergence :=
  resume_divergence _ _ hresult

theorem Session.fail_diverged (step : Nat) (reason : Mismatch) (s : Session τ) :
    (s.fail (.diverged step reason)).divergence = some (step, reason) :=
  (Session.Framed.recordBug .divergence (Refusal.diverged step reason).message
    { s with divergence := some (step, reason) }).divergence

theorem resume_diverged (full : Session τ → Bool) (x : Place σ) (step : Nat) (reason : Mismatch)
    (s : Session τ) : (P.resume full x (.error (.diverged step reason)) s).session.divergence =
      some (step, reason) := by
  have hfail := Session.fail_diverged step reason s
  cases x with
  | scheduling p => exact hfail
  | question q next => exact (settle_framed full P (next none) _).divergence.trans hfail

theorem turn_stepBound {a : Pause σ τ} {p : σ} {t : Session τ}
    (h : a.turn S P = .inr (.ended .stepBound p, t)) :
    (a.answer S P).result = .error .exhausted ∨ S.isFull t = true := by
  obtain ⟨x, s⟩ := a
  unfold Pause.turn at h
  cases hresult : (Pause.answer S P ⟨x, s⟩).result with
  | ok v =>
    rw [hresult, resume_ok] at h
    exact .inr (settle_stepBound _ _ _ _ h)
  | error refusal =>
    rw [hresult] at h
    cases x with
    | question q next => exact .inr (settle_stepBound _ _ _ _ h)
    | scheduling q =>
      cases refusal with
      | exhausted => exact .inl rfl
      | noEnabledChoice => cases h
      | diverged step reason => cases h
      | liveness v => cases h

@[simp] theorem Session.fail_trace (refusal : Refusal) (s : Session τ) :
    (s.fail refusal).trace = s.trace := by
  cases refusal with
  | noEnabledChoice => rfl
  | exhausted => rfl
  | diverged step reason => exact (Session.Framed.recordBug _ _ _).trace
  | liveness v => exact (Session.Framed.recordBug _ _ _).trace

theorem resume_error_trace (full : Session τ → Bool) (x : Place σ) (refusal : Refusal)
    (s : Session τ) : (P.resume full x (.error refusal) s).session.trace = s.trace :=
  resume_error_keeps (K := fun t => t.trace = s.trace)
    (fun h t ht => (settle_framed full P h t).trace.trans ht) x rfl (Session.fail_trace refusal s)

/-- Where there is no answer a run ends with what it has recorded. -/
theorem turn_of_exhausted {a : Pause σ τ} (hresult : (a.answer S P).result = .error .exhausted) :
    ∃ r, a.turn S P = .inr r ∧ r.2.strategy = (a.answer S P).state ∧
      r.2.trace = a.session.trace ∧ r.2.divergence = a.session.divergence := by
  obtain ⟨r, hr⟩ := resume_error (P := P) S.isFull a.place .exhausted (a.answered S P)
  have hturn : a.turn S P = .inr r := by rw [Pause.turn, hresult, hr]
  refine ⟨r, hturn, ?_, ?_, ?_⟩
  · rw [← turn_strategy, hturn]
    rfl
  · have htrace := resume_error_trace (P := P) S.isFull a.place .exhausted (a.answered S P)
    rwa [hr] at htrace
  · rw [← turn_divergence (S := S) (P := P) fun _ _ h => (by rw [hresult] at h; cases h), hturn]
    rfl

theorem turn_trace {a : Pause σ τ} {v : (a.place.request P).Reply}
    (h : (a.answer S P).result = .ok v) :
    (a.turn S P).session.trace = a.session.trace.push (a.place.choice P v) := by
  unfold Pause.turn
  rw [h, resume_ok, (settle_framed _ P _ _).trace, Session.record_trace]
  rfl

theorem concludes_trace {x : Juncture σ τ} {r : Stop σ × Session τ} (h : x.Concludes S P r) :
    ∃ cs, r.2.trace.toList = x.session.trace.toList ++ cs := by
  induction h with
  | ended => exact ⟨[], by simp [Juncture.session]⟩
  | @turn a r _ ih =>
    obtain ⟨cs, hcs⟩ := ih
    cases hresult : (a.answer S P).result with
    | ok v =>
      rw [turn_trace hresult, Trace.toList_push] at hcs
      exact ⟨a.place.choice P v :: cs, by rw [hcs]; simp [Juncture.session]⟩
    | error refusal =>
      unfold Pause.turn at hcs
      rw [hresult, resume_error_trace] at hcs
      exact ⟨cs, hcs⟩

theorem turn_eq_inl {a b : Pause σ τ} (h : a.turn S P = .inl b) :
    ∃ v, (a.answer S P).result = .ok v ∧ b.session.strategy = (a.answer S P).state ∧
      b.session.trace = a.session.trace.push (a.place.choice P v) ∧
      b.session.observer.album = (a.answer S P).observer.album ∧ b.Open S.isFull P := by
  unfold Pause.turn at h
  cases hresult : (a.answer S P).result with
  | error refusal =>
    obtain ⟨r, hr⟩ := resume_error (P := P) S.isFull a.place refusal (a.answered S P)
    rw [hresult, hr] at h
    cases h
  | ok v =>
    rw [hresult, resume_ok] at h
    have hframe := settle_framed S.isFull P (a.place.reaction P v)
      ((a.answered S P).record P a.place v)
    rw [h] at hframe
    exact ⟨v, rfl, hframe.strategy.trans (by simp [Pause.answered]),
      hframe.trace.trans (by simp [Pause.answered]), hframe.album.trans (by simp [Pause.answered]),
      settle_open S.isFull P (fun _ _ => rfl) _ _ b h⟩

/-- What holds of the first pause and is kept by each turn holds of every pause. -/
theorem pauseAt_induction {start : τ} {Q : Pause σ τ → Prop}
    (hopening : ∀ a, P.opening S start = .inl a → Q a)
    (hturn : ∀ a b, Q a → a.turn S P = .inl b → Q b) :
    ∀ n a, P.pauseAt S start n = some a → Q a := by
  intro n
  induction n with
  | zero =>
    intro a ha
    exact hopening a (Sum.getLeft?_eq_some_iff.1 ha)
  | succ n ih =>
    intro b hb
    obtain ⟨a, ha, hab⟩ := Option.bind_eq_some_iff.1 hb
    exact hturn a b (ih a ha) (Sum.getLeft?_eq_some_iff.1 hab)

theorem pauseAt_succ {start : τ} {n : Nat} {a b : Pause σ τ}
    (ha : P.pauseAt S start n = some a) (hab : a.turn S P = .inl b) :
    P.pauseAt S start (n + 1) = some b := by
  rw [Program.pauseAt, ha, Option.bind_some, hab]
  rfl

theorem pauseAt_of_succ {start : τ} {n : Nat} {b : Pause σ τ}
    (hb : P.pauseAt S start (n + 1) = some b) :
    ∃ a, P.pauseAt S start n = some a ∧ a.turn S P = .inl b := by
  obtain ⟨a, ha, hab⟩ := Option.bind_eq_some_iff.1 hb
  exact ⟨a, ha, Sum.getLeft?_eq_some_iff.1 hab⟩

theorem pauseAt_of_le {start : τ} {m n : Nat} {b : Pause σ τ} (hmn : m ≤ n)
    (hb : P.pauseAt S start n = some b) : ∃ a, P.pauseAt S start m = some a := by
  induction hmn generalizing b with
  | refl => exact ⟨b, hb⟩
  | step _ ih =>
    obtain ⟨a, ha, _⟩ := pauseAt_of_succ hb
    exact ih ha

theorem pauseAt_of_error {start : τ} {n : Nat} {a : Pause σ τ}
    (ha : P.pauseAt S start n = some a) {refusal : Refusal}
    (h : (a.answer S P).result = .error refusal) : P.pauseAt S start (n + 1) = none := by
  obtain ⟨r, hr⟩ := resume_error (P := P) S.isFull a.place refusal (a.answered S P)
  have hturn : a.turn S P = .inr r := by rw [Pause.turn, h, hr]
  rw [Program.pauseAt, ha, Option.bind_some, hturn]
  rfl

theorem opening_eq_inl {start : τ} {a : Pause σ τ} (h : P.opening S start = .inl a) :
    a.session.strategy = start ∧ a.session.trace = .empty ∧ a.session.observer.album = .empty ∧
      a.Open S.isFull P := by
  have hframe := settle_framed S.isFull P (P.start P.fresh) (.new start)
  have hopen := settle_open S.isFull P (fun _ _ => rfl) (P.start P.fresh) (.new start) a h
  change Program.settle S.isFull P (P.start P.fresh) (.new start) = .inl a at h
  rw [h] at hframe
  exact ⟨hframe.strategy, hframe.trace, hframe.album, hopen⟩

theorem pauseAt_open {start : τ} {n : Nat} {a : Pause σ τ} (h : P.pauseAt S start n = some a) :
    a.Open S.isFull P := by
  refine pauseAt_induction (fun a ha => (opening_eq_inl ha).2.2.2) (fun a b _ hab => ?_) n a h
  obtain ⟨_, _, _, _, _, hopen⟩ := turn_eq_inl hab
  exact hopen

theorem length_trace_pauseAt {start : τ} {n : Nat} :
    ∀ {a : Pause σ τ}, P.pauseAt S start n = some a → a.session.trace.length = n := by
  induction n with
  | zero =>
    intro a ha
    rw [(opening_eq_inl (Sum.getLeft?_eq_some_iff.1 ha)).2.1]
    rfl
  | succ n ih =>
    intro b hb
    obtain ⟨a, ha, hab⟩ := pauseAt_of_succ hb
    obtain ⟨v, _, _, htrace, _, _⟩ := turn_eq_inl hab
    rw [htrace, Trace.length_push, ih ha]

end Frame

section Relation

variable {σ τ τ' : Type}

/-- A relation of sessions that is kept by all that a handler does on its own. -/
structure Session.Congruent (R : Session τ → Session τ' → Prop) : Prop where
  halted : ∀ {s s'}, R s s' → s.halted = s'.halted
  check : ∀ {s s'} message, R s s' → s.halted = false →
    R (s.recordBug .safety message) (s'.recordBug .safety message)
  tell : ∀ {s s'} n, R s s' → R (s.tell n) (s'.tell n)

/-- Two runs of a program at the same point, in related sessions. -/
inductive Juncture.Related (R : Session τ → Session τ' → Prop) (full : Session τ → Bool)
    (full' : Session τ' → Bool) (P : Program σ) : Juncture σ τ → Juncture σ τ' → Prop where
  | asked {q : Question} {next : Option q.request.Reply → Handler σ} {s : Session τ}
      {s' : Session τ'} : R s s' → s.halted = false →
      Related R full full' P (.inl ⟨.question q next, s⟩) (.inl ⟨.question q next, s'⟩)
  | ended {stop : Stop σ} {s : Session τ} {s' : Session τ'} : R s s' →
      Related R full full' P (.inr (stop, s)) (.inr (stop, s'))
  | schedule {p : σ} {s : Session τ} {s' : Session τ'} : R s s' → s.halted = false →
      (enabledIds (P.units p)).isEmpty = false →
      Related R full full' P (P.schedule full p s) (P.schedule full' p s')

variable {R : Session τ → Session τ' → Prop} {full : Session τ → Bool} {full' : Session τ' → Bool}
  {P : Program σ}

theorem settle_related (hR : Session.Congruent R) (h : Handler σ) :
    ∀ (s : Session τ) (s' : Session τ'), R s s' →
      Juncture.Related R full full' P (P.settle full h s) (P.settle full' h s') := by
  induction h with
  | finish p =>
    intro s s' hs
    simp only [Program.settle, Program.offer, ← hR.halted hs]
    split
    · exact .ended hs
    · rename_i hh
      split
      · exact .ended hs
      · rename_i he
        exact .schedule hs (by simpa using hh) (by simpa using he)
  | abort p => intro s s' hs; exact .ended hs
  | panic message => intro s s' hs; exact .ended hs
  | ask q next ih =>
    intro s s' hs
    simp only [Program.settle, ← hR.halted hs]
    split
    · exact ih none s s' hs
    · rename_i hh
      exact .asked hs (by simpa using hh)
  | check holds message next ih =>
    intro s s' hs
    simp only [Program.settle, Session.check, ← hR.halted hs]
    split
    · exact ih false s s' hs
    · rename_i hh
      split
      · exact ih true s s' hs
      · exact ih false _ _ (hR.check message hs (by simpa using hh))
  | tell n next ih => intro s s' hs; exact ih _ _ (hR.tell n hs)

end Relation

section Forget

variable {σ τ τ' : Type}

/-- What a session has recorded, without the strategy and the album. -/
def Session.forget (s : Session τ) : Session Unit :=
  { s with strategy := (), observer := ⟨s.observer.observed, .empty⟩ }

/-- Two sessions that differ at most in the strategy and the album. -/
def Session.Alike (s : Session τ) (s' : Session τ') : Prop := s.forget = s'.forget

theorem Session.forget_recordBug (kind : BugKind) (message : String) (s : Session τ) :
    (s.recordBug kind message).forget = s.forget.recordBug kind message := by
  obtain ⟨strategy, trace, observer, offered, halted, bug, _, _, _, _⟩ := s
  cases bug <;> rfl

theorem Session.forget_tell (n : Notice) (s : Session τ) :
    (s.tell n).forget = s.forget.tell n := by
  cases n <;> rfl

theorem Session.forget_record {P : Program σ} (x : Place σ) (v : (x.request P).Reply)
    (s : Session τ) : (s.record P x v).forget = s.forget.record P x v := by
  cases x <;> rfl

theorem Session.congruent_alike :
    Session.Congruent (fun (s : Session τ) (s' : Session τ') => s.Alike s') where
  halted h := congrArg (fun s : Session Unit => s.halted) h
  check {s s'} message h _ := by
    have h' : s.forget.recordBug .safety message = s'.forget.recordBug .safety message := by rw [h]
    exact (forget_recordBug _ _ s).trans (h'.trans (forget_recordBug _ _ s').symm)
  tell {s s'} n h := by
    have h' : s.forget.tell n = s'.forget.tell n := by rw [h]
    exact (forget_tell n s).trans (h'.trans (forget_tell n s').symm)

/-- A run as far as recorded. -/
def Juncture.forget : Juncture σ τ → Juncture σ Unit
  | .inl a => .inl ⟨a.place, a.session.forget⟩
  | .inr r => .inr (r.1, r.2.forget)

/-- What a handler records does not depend on the strategy, as long as both sides agree on
whether a further unit may be scheduled. -/
theorem forget_settle {full : Session τ → Bool} {full' : Session Unit → Bool} {P : Program σ}
    (h : Handler σ) (s : Session τ)
    (hfull : ∀ t : Session τ, t.strategy = s.strategy → t.trace = s.trace →
      full t = full' t.forget) :
    (P.settle full h s).forget = P.settle full' h s.forget := by
  let R (t : Session τ) (t' : Session Unit) : Prop := t.forget = t' ∧ s.Framed t
  have hR : Session.Congruent R :=
    { halted := fun h => congrArg (fun s : Session Unit => s.halted) h.1
      check := fun message h _ =>
        ⟨(Session.forget_recordBug _ _ _).trans (by rw [h.1]), h.2.trans (.recordBug _ _ _)⟩
      tell := fun n h => ⟨(Session.forget_tell n _).trans (by rw [h.1]), h.2.trans (.tell n _)⟩ }
  have hrel : Juncture.Related R full full' P (P.settle full h s) (P.settle full' h s.forget) :=
    settle_related hR h s s.forget ⟨rfl, .refl s⟩
  generalize P.settle full h s = x at hrel ⊢
  generalize P.settle full' h s.forget = y at hrel ⊢
  cases hrel with
  | asked hs => rw [← hs.1]; rfl
  | ended hs => rw [← hs.1]; rfl
  | @schedule p t t' hs =>
    have hf : full t = full' t.forget := hfull t hs.2.strategy hs.2.trace
    rw [← hs.1]
    unfold Program.schedule
    rw [hf]
    split <;> rfl

theorem forget_resume {full : Session τ → Bool} {full' : Session Unit → Bool} {P : Program σ}
    (x : Place σ) (v : (x.request P).Reply) (s : Session τ)
    (hfull : ∀ t : Session τ, t.strategy = s.strategy → t.trace = s.trace.push (x.choice P v) →
      full t = full' t.forget) :
    (P.resume full x (.ok v) s).forget = P.resume full' x (.ok v) s.forget := by
  rw [resume_ok, resume_ok, ← Session.forget_record]
  exact forget_settle _ _ fun t hs ht => hfull t (by simpa using hs) (by simpa using ht)

end Forget
end Interleave
