import Interleave.Proofs.Pause.Simulation
import Interleave.Proofs.Conformance.Composed

/-!
# Interleave.Proofs.Replay.Recording

A run and the replay of its trace, side by side. Both are at the same point of the program, and the
replay has read as many choices as the run has made.

* `Session.Mirrors`: the relation of the two sessions.
* `turn_mirrored`: a request that is answered in the run is answered alike in the replay.
* `refusal_exhausted`: a refusal that leaves no bug behind ends the run where the trace ends.
* `replays_of_concludes`: by induction on the run, the replay comes to the same end.
* `replay_reproduces`: the outcomes are equal.
-/

namespace Interleave

section Clean

variable {σ τ : Type}

/-- A run that goes on has no bug yet, and nothing has diverged. -/
structure Session.Clean (s : Session τ) : Prop where
  bug : s.halted = false → s.bug = none
  divergence : s.divergence = none

theorem Session.check_bug {holds : Bool} {message : String} {s : Session τ} {b : Bug}
    (hb : s.bug = some b) : (s.check holds message).2.bug = some b := by
  simp only [Session.check]
  repeat' split
  · exact hb
  · exact hb
  · simp [Session.recordBug, hb]

theorem settle_bug (full : Session τ → Bool) (P : Program σ) (h : Handler σ) (s : Session τ)
    (b : Bug) : s.bug = some b → (P.settle full h s).session.bug = some b :=
  settle_keeps (K := fun s => s.bug = some b) (fun _ _ hb => hb) (fun _ _ _ => Session.check_bug)
    (fun s n hb => by cases n <;> exact hb) full P h s

/-- A bug that the program itself can show, at work or at rest. -/
def Bug.IsOfProgram (b : Bug) : Prop := b.kind = .safety ∨ b.kind = .hotAtRest

theorem fail_bug {s : Session τ} {refusal : Refusal} (hs : s.bug = none)
    (h : refusal.isQuiescence = false) :
    ∃ b, (s.fail refusal).bug = some b ∧ ¬ b.IsOfProgram := by
  cases refusal with
  | noEnabledChoice => cases h
  | exhausted => cases h
  | diverged step reason =>
    exact ⟨⟨.divergence, _⟩, by simp [Session.fail, Session.recordBug, hs, Session.say]; rfl,
      by simp [Bug.IsOfProgram]⟩
  | liveness v =>
    exact ⟨⟨.liveness, _⟩, by simp [Session.fail, Session.recordBug, hs, Session.say]; rfl,
      by simp [Bug.IsOfProgram]⟩

end Clean

section Mirror

variable {σ τ : Type} {S : Strategy τ} {Inv : τ → Prop} {P : Program σ} {T : Trace} {fair : Bool}

/-- A run and the replay of the trace `T`: all that is recorded is the same, and the replay has
read the choices that the run has made. -/
structure Session.Mirrors (S : Strategy τ) (Inv : τ → Prop) (T : Trace) (fair : Bool)
    (s : Session τ) (s' : Session Replay) : Prop where
  alike : s.Alike s'
  inv : Inv s.strategy
  steps : S.steps s.strategy = s.trace.length
  replay : s'.strategy = ⟨T, fair, s.trace.length⟩
  clean : s.Clean

theorem congruent_mirrors : Session.Congruent (Session.Mirrors S Inv T fair) where
  halted h := Session.congruent_alike.halted h.alike
  check {s s'} message h hs := by
    have hframe := Session.Framed.recordBug .safety message s
    have hframe' := Session.Framed.recordBug .safety message s'
    refine ⟨Session.congruent_alike.check message h.alike hs, ?_, ?_, ?_, ?_, ?_⟩
    · rw [hframe.strategy]; exact h.inv
    · rw [hframe.strategy, hframe.trace]; exact h.steps
    · rw [hframe'.strategy, hframe.trace]; exact h.replay
    · intro hrun; simp at hrun
    · rw [hframe.divergence]; exact h.clean.divergence
  tell {s s'} n h := by
    have hframe := Session.Framed.tell n s
    have hframe' := Session.Framed.tell n s'
    refine ⟨Session.congruent_alike.tell n h.alike, ?_, ?_, ?_, ?_, ?_⟩
    · rw [hframe.strategy]; exact h.inv
    · rw [hframe.strategy, hframe.trace]; exact h.steps
    · rw [hframe'.strategy, hframe.trace]; exact h.replay
    · intro hrun
      rw [show (s.tell n).bug = s.bug by cases n <;> rfl]
      exact h.clean.bug (by simpa using hrun)
    · rw [hframe.divergence]; exact h.clean.divergence

theorem replay_reply {r : Request} {s : Replay} {c : Choice} {v : r.Reply}
    (hr : r.nothingEnabled = false) (hc : s.trace.get? s.cursor = some c)
    (hv : r.accept? c = some v) : s.reply r = (.ok v, { s with cursor := s.cursor + 1 }) := by
  simp [Replay.reply, hr, Replay.recorded, hc, hv]

theorem replay_reply_ended {r : Request} {s : Replay} (hr : r.nothingEnabled = false)
    (hs : s.cursor = s.trace.length) :
    s.reply r = (.error (.diverged s.cursor .traceEnded), s) := by
  have hnone : s.trace.get? s.cursor = none := by
    rw [Trace.get?_eq_getElem?_toList, hs, ← Trace.length_toList]
    simp
  simp [Replay.reply, hr, Replay.recorded, hnone]

theorem answered_forget (hS : S.Conforms Inv) (a : Pause σ τ) :
    (a.answered S P).forget = a.session.forget := by
  simp only [Pause.answered, Session.forget, Pause.answer, hS.observed]
  rfl

/-- The reply that the run gets is the next one of the trace, so the replay gets it too. -/
theorem turn_mirrored (hS : S.Conforms Inv) {a : Pause σ τ} {s' : Session Replay}
    (h : a.session.Mirrors S Inv T fair s') (ha : (a.place.request P).nothingEnabled = false)
    {v : (a.place.request P).Reply} (hv : (a.answer S P).result = .ok v)
    (hT : T.get? a.session.trace.length = some (a.place.choice P v)) :
    Juncture.Related (Session.Mirrors S Inv T fair) S.isFull Replay.strategy.isFull P (a.turn S P)
      ((Pause.mk a.place s').turn Replay.strategy P) := by
  have hserved : Served _ _ (a.answer S P).result (S.steps (a.answer S P).state) :=
    hS.served (a.place.request P) a.session.scene a.session.strategy h.inv
  rw [hv] at hserved
  generalize hsteps : S.steps (a.answer S P).state = steps at hserved
  cases hserved with
  | reply hadmits =>
    have hreply : s'.strategy.reply (a.place.request P) =
        (.ok v, { s'.strategy with cursor := s'.strategy.cursor + 1 }) := by
      refine replay_reply ha ?_ (accept?_choice a.place v hadmits)
      rw [h.replay]
      exact hT
    have hanswer : (Pause.mk a.place s').answer Replay.strategy P =
        ⟨.ok v, { s'.strategy with cursor := s'.strategy.cursor + 1 }, s'.observer⟩ := by
      simp only [Pause.answer, Replay.strategy, Answer.blind, hreply]
      rfl
    unfold Pause.turn
    rw [hv, hanswer, resume_ok, resume_ok]
    refine settle_related congruent_mirrors _ _ _ ⟨?_, ?_, ?_, ?_, ?_, ?_⟩
    · show Session.forget _ = Session.forget _
      rw [Session.forget_record, Session.forget_record, answered_forget hS,
        answered_forget replay_conforms]
      exact congrArg _ h.alike
    · rw [Session.record_strategy]
      exact hS.answer _ _ _ h.inv
    · rw [Session.record_strategy, Session.record_trace, Trace.length_push]
      show S.steps (a.answer S P).state = a.session.trace.length + 1
      rw [hsteps, h.steps]
    · rw [Session.record_strategy, Session.record_trace, Trace.length_push]
      show ((Pause.mk a.place s').answer Replay.strategy P).state = _
      rw [hanswer, h.replay]
      rfl
    · intro hrun
      rw [Session.record_bug]
      rw [Session.record_halted] at hrun
      exact h.clean.bug hrun
    · rw [Session.record_divergence]
      exact h.clean.divergence

theorem refusal_exhausted (hS : S.Conforms Inv) {a : Pause σ τ} (hinv : Inv a.session.strategy)
    (ha : (a.place.request P).nothingEnabled = false) (hclean : a.session.bug = none)
    {refusal : Refusal} (hrefusal : (a.answer S P).result = .error refusal)
    {r : Stop σ × Session τ} (hr : (a.turn S P).Concludes S P r)
    (hbug : ∀ b, r.2.bug = some b → b.IsOfProgram) :
    S.steps (a.answer S P).state = S.steps a.session.strategy ∧
      ∃ p, a.place = .scheduling p ∧ r = (.ended .stepBound p, a.answered S P) := by
  have hserved : Served _ _ (a.answer S P).result (S.steps (a.answer S P).state) :=
    hS.served (a.place.request P) a.session.scene a.session.strategy hinv
  rw [hrefusal] at hserved
  unfold Pause.turn at hr
  rw [hrefusal] at hr
  generalize S.steps (a.answer S P).state = steps at hserved
  obtain ⟨x, s⟩ := a
  cases hserved with
  | quiescent hnothing =>
    rw [ha] at hnothing
    cases hnothing
  | exhausted hunit =>
    cases x with
    | scheduling p =>
      cases hr
      exact ⟨rfl, p, rfl, rfl⟩
    | question q next => cases q <;> cases hunit
  | refused hquiet =>
    obtain ⟨b, hb, hnot⟩ := fail_bug (s := (Pause.mk x s).answered S P) hclean hquiet
    cases x with
    | scheduling p =>
      have hend : P.resume S.isFull (.scheduling p) (.error refusal)
          ((Pause.mk (.scheduling p) s).answered S P) =
          .inr (.ended .halted p, ((Pause.mk (.scheduling p) s).answered S P).fail refusal) := by
        cases refusal with
        | noEnabledChoice => cases hquiet
        | exhausted => cases hquiet
        | diverged step reason => rfl
        | liveness v => rfl
      rw [hend] at hr
      cases hr
      exact absurd (hbug b hb) hnot
    | question q next =>
      obtain ⟨r', hr'⟩ := settle_of_halted S.isFull P (next none)
        (((Pause.mk (.question q next) s).answered S P).fail refusal) (by simp)
      have hkept := settle_bug S.isFull P (next none) _ b hb
      simp only [Program.resume] at hr
      rw [hr'] at hr hkept
      cases hr
      exact absurd (hbug b hkept) hnot

/-- The next choice of the trace is the one that the run makes here. -/
theorem get?_of_concludes {a : Pause σ τ} {v : (a.place.request P).Reply}
    (hv : (a.answer S P).result = .ok v) {r : Stop σ × Session τ}
    (hr : (a.turn S P).Concludes S P r) :
    r.2.trace.get? a.session.trace.length = some (a.place.choice P v) := by
  obtain ⟨cs, hcs⟩ := concludes_trace hr
  rw [Trace.get?_eq_getElem?_toList, hcs, turn_trace hv, Trace.toList_push, ← Trace.length_toList]
  simp

/-- A run and its replay have ended alike; only the units last offered may differ. -/
structure Session.Reproduced (S : Strategy τ) (fair : Bool) (s : Session τ) (s' : Session Replay) :
    Prop where
  alike : { s.forget with offered := [] } = { s'.forget with offered := [] }
  steps : S.steps s.strategy = s'.strategy.cursor
  fair : s'.strategy.fair = fair
  divergence : s.divergence = none

theorem Session.Mirrors.reproduced {s : Session τ} {s' : Session Replay}
    (h : s.Mirrors S Inv T fair s') : s.Reproduced S fair s' where
  alike := by rw [show s.forget = s'.forget from h.alike]
  steps := by rw [h.steps, h.replay]
  fair := by rw [h.replay]
  divergence := h.clean.divergence

/-- At its bound the run has made all choices of a trace that is not empty, and so has the
replay. -/
theorem schedule_of_mirrors {p : σ} {s : Session τ} {s' : Session Replay}
    (h : s.Mirrors S Inv T fair s') (hT : T.length = s.trace.length) (hne : T.isEmpty = false) :
    P.schedule Replay.strategy.isFull p s' = .inr (.ended .stepBound p, s') := by
  have hfull : Replay.strategy.isFull s' = true := by
    show (!s'.strategy.trace.isEmpty &&
      decide (s'.strategy.trace.length ≤ s'.strategy.cursor)) = true
    rw [h.replay]
    simp [hne, hT]
  simp [Program.schedule, hfull]

/-- The replay where the run waits: it waits there too, or a unit would be asked for and the trace
has been read to its end. -/
inductive Pause.Mirrored (S : Strategy τ) (Inv : τ → Prop) (T : Trace) (fair : Bool)
    (a : Pause σ τ) : Juncture σ Replay → Prop where
  | waits {s' : Session Replay} : a.session.Mirrors S Inv T fair s' →
      (∀ p, a.place = .scheduling p → T.isEmpty = true ∨ a.session.trace.length < T.length) →
      Mirrored S Inv T fair a (.inl ⟨a.place, s'⟩)
  | full {p : σ} {s' : Session Replay} : a.place = .scheduling p → T.isEmpty = false →
      T.length ≤ a.session.trace.length →
      Session.Mirrors S Inv T fair { a.session with offered := s'.offered } s' →
      Mirrored S Inv T fair a (.inr (.ended .stepBound p, s'))

theorem mirrored_of_related {a : Pause σ τ} {y : Juncture σ Replay}
    (hrel : Juncture.Related (Session.Mirrors S Inv T fair) S.isFull Replay.strategy.isFull P
      (.inl a) y) :
    a.Mirrored S Inv T fair y ∧ a.session.halted = false ∧
      (a.place.request P).nothingEnabled = false := by
  generalize hx : Sum.inl a = x at hrel
  cases hrel with
  | ended => cases hx
  | @asked q next s s' h hrun =>
    cases hx
    exact ⟨.waits h fun p hp => (by cases hp), hrun, by cases q <;> rfl⟩
  | @schedule p s s' h hrun henabled =>
    unfold Program.schedule at hx
    split at hx
    · cases hx
    · cases hx
      refine ⟨?_, hrun, henabled⟩
      have hfull : Replay.strategy.isFull s' =
          (!T.isEmpty && decide (T.length ≤ s.trace.length)) := by
        show (!s'.strategy.trace.isEmpty &&
          decide (s'.strategy.trace.length ≤ s'.strategy.cursor)) = _
        rw [h.replay]
      have hoffer : ∀ units, ({ s with offered := units } : Session τ).Mirrors S Inv T fair
          { s' with offered := units } := by
        intro units
        have halike : s.forget = s'.forget := h.alike
        refine ⟨?_, h.inv, h.steps, h.replay, h.clean.bug, h.clean.divergence⟩
        show ({ s.forget with offered := units } : Session Unit) =
          { s'.forget with offered := units }
        rw [halike]
      cases hend : Replay.strategy.isFull s' with
      | true =>
        rw [Program.schedule, if_pos hend]
        have hread : T.isEmpty = false ∧ T.length ≤ s.trace.length := by
          simpa using hfull.symm.trans hend
        exact .full rfl hread.1 hread.2 (hoffer s'.offered)
      | false =>
        rw [Program.schedule, if_neg (by simp [hend])]
        refine .waits (hoffer _) fun _ _ => ?_
        have hopen := hfull.symm.trans hend
        by_cases hempty : T.isEmpty = true
        · exact .inl hempty
        · simp only [hempty, Bool.not_false, Bool.true_and, decide_eq_false_iff_not] at hopen
          exact .inr (by simpa using hopen)

/-- By induction on the requests of the run. -/
theorem replays_of_concludes (hS : S.Conforms Inv) {x : Juncture σ τ} {r : Stop σ × Session τ}
    (hx : x.Concludes S P r) (hbug : ∀ b, r.2.bug = some b → b.IsOfProgram)
    (hne : ∀ p, r.1 = .ended .stepBound p → r.2.trace.isEmpty = false) :
    ∀ y, Juncture.Related (Session.Mirrors S Inv r.2.trace fair) S.isFull
        Replay.strategy.isFull P x y →
      ∃ s', y.Concludes Replay.strategy P (r.1, s') ∧ r.2.Reproduced S fair s' := by
  induction hx with
  | @ended r =>
    intro y hrel
    generalize hx : Sum.inr r = x at hrel
    cases hrel with
    | asked => cases hx
    | ended h =>
      cases hx
      exact ⟨_, .ended, h.reproduced⟩
    | @schedule p s s' h hrun henabled =>
      unfold Program.schedule at hx
      split at hx
      · cases hx
        rw [schedule_of_mirrors h rfl (hne p rfl)]
        exact ⟨s', .ended, h.reproduced⟩
      · cases hx
  | @turn a r hr ih =>
    intro y hrel
    obtain ⟨hy, hrun, hask⟩ := mirrored_of_related hrel
    cases hresult : (a.answer S P).result with
    | ok v =>
      have hnext := get?_of_concludes hresult hr
      have hlt := Trace.lt_length_of_get? hnext
      cases hy with
      | waits h =>
        obtain ⟨t', ht', hend⟩ := ih hbug hne _ (turn_mirrored hS h hask hresult hnext)
        exact ⟨t', .turn ht', hend⟩
      | full hplace hempty hle => omega
    | error refusal =>
      have hclean : a.session.bug = none ∧ S.steps a.session.strategy = a.session.trace.length ∧
          Inv a.session.strategy := by
        cases hy with
        | waits h => exact ⟨h.clean.bug hrun, h.steps, h.inv⟩
        | full hplace hempty hle h => exact ⟨h.clean.bug hrun, h.steps, h.inv⟩
      obtain ⟨hsteps, p, hplace, hend⟩ :=
        refusal_exhausted hS hclean.2.2 hask hclean.1 hresult hr hbug
      subst hend
      cases hy with
      | waits h hopen =>
        rcases hopen p hplace with hempty | hlt
        · rw [hne p rfl] at hempty
          cases hempty
        · exact absurd hlt (Nat.lt_irrefl _)
      | @full p' s' hplace' hempty hle h =>
        cases hplace.symm.trans hplace'
        refine ⟨s', .ended, ?_, ?_, by rw [h.replay], h.clean.divergence⟩
        · show { (Pause.answered S P a).forget with offered := [] } = _
          rw [answered_forget hS]
          exact h.reproduced.alike
        · show S.steps _ = _
          rw [h.replay]
          exact hsteps.trans h.steps

theorem outcome_of_reproduced {s : Session τ} {s' : Session Replay} (p : σ) (ending : Ending)
    (h : s.Reproduced S (S.isFair s.strategy) s') :
    s'.outcome Replay.strategy P p ending = s.outcome S P p ending := by
  obtain ⟨halike, hsteps, hfair, _⟩ := h
  obtain ⟨strategy, trace, observer, offered, halted, bug, divergence, narrative, machines,
    monitors⟩ := s
  obtain ⟨strategy', trace', observer', offered', halted', bug', divergence', narrative', machines',
    monitors'⟩ := s'
  simp only [Session.forget, Session.mk.injEq] at halike
  obtain ⟨_, rfl, _, _, rfl, rfl, rfl, rfl, rfl, rfl⟩ := halike
  have hfair' : Replay.strategy.isFair strategy' = S.isFair strategy := hfair
  have hsteps' : Replay.strategy.steps strategy' = S.steps strategy := hsteps.symm
  simp only [Session.outcome, hfair']
  simp only [Session.checkRest, Session.recordBug, Session.say, Session.coverage]
  split
  · cases bug <;> simp [hsteps']
  · simp [hsteps']

end Mirror

/-- A run whose outcome shows no bug, or one of the program, is reproduced by the replay of its
trace. -/
theorem replay_reproduces {σ : Type} {P : Program σ} {p : Plan} (hp : p.IsComposed)
    {s s' : p.State} (hs : p.strategy.Reaches p.start s) (hsteps : p.strategy.steps s = 0)
    {fuel : Nat} {o : Outcome} (hrun : P.run fuel p.strategy s = some (.ok o, s'))
    (hbug : ∀ b, o.bug = some b → b.kind = .safety ∨ b.kind = .hotAtRest)
    (hempty : o.ending = .stepBound → o.trace.isEmpty = false) :
    o.divergence = none ∧
      ∃ fuel' r, P.run fuel' Replay.strategy (.new o.trace o.fair) = some (.ok o, r) := by
  obtain ⟨Inv, hS, hstart⟩ := p.conforms hp
  obtain ⟨⟨stop, t⟩, hdrive, hresult⟩ := Option.map_eq_some_iff.1 hrun
  cases stop with
  | panicked message => cases hresult
  | ended ending q =>
    cases hresult
    have hconcludes := drive_eq_some_iff.1 ⟨fuel, hdrive⟩
    have hbug' : ∀ b, t.bug = some b → b.IsOfProgram := by
      intro b hb
      refine hbug b ?_
      have hrest : t.checkRest (p.strategy.isFair t.strategy) P q ending = t := by
        simp [Session.checkRest, hb]
      simp only [Session.outcome, hrest, hb]
    have htrace := outcome_trace p.strategy P q ending t
    have hbegin : Session.Mirrors p.strategy Inv t.trace (p.strategy.isFair t.strategy) (.new s)
        (.new (.new t.trace (p.strategy.isFair t.strategy))) :=
      ⟨rfl, hS.of_reaches hstart hs, hsteps, rfl, fun _ => rfl, rfl⟩
    obtain ⟨t', hreplay, hend⟩ := replays_of_concludes hS hconcludes hbug'
      (fun _ hstop => by cases hstop; rw [← htrace]; exact hempty rfl) _
      (settle_related congruent_mirrors _ _ _ hbegin)
    obtain ⟨fuel', hdrive'⟩ := drive_eq_some_iff.2 hreplay
    have hrun' : P.run fuel' Replay.strategy (.new t.trace (p.strategy.isFair t.strategy)) =
        some (.ok (t'.outcome Replay.strategy P q ending), t'.strategy) :=
      Option.map_eq_some_iff.2 ⟨_, hdrive', rfl⟩
    rw [outcome_of_reproduced q ending hend] at hrun'
    refine ⟨(outcome_divergence p.strategy P q ending t).trans hend.divergence, fuel', t'.strategy,
      ?_⟩
    rw [htrace]
    exact hrun'

/-- A flag is put up or down, and one unit expects it to be up. -/
def raisedFlag : Program (Option Bool) where
  fresh := none
  start _ := .ask (.boolean 2) fun up => .finish up
  units up := [⟨⟨1⟩, .actor, up.isSome, none⟩]
  current _ := none
  execute _ up := .check (up == some true) "the flag is down" fun _ => .finish none
  hotMonitors _ := []
  label _ _ := "reader"

theorem replay_reproduces_raisedFlag :
    ∃ o, (∃ s, raisedFlag.run 2 DepthFirst.strategy (.new 5) = some (.ok o, s)) ∧
      o.bug = some ⟨.safety, "the flag is down"⟩ ∧ o.trace.length = 2 ∧ o.divergence = none ∧
      ∃ fuel r, raisedFlag.run fuel Replay.strategy (.new o.trace o.fair) = some (.ok o, r) := by
  obtain ⟨o, s, hrun, hbug, htrace, hending⟩ : ∃ o s,
      raisedFlag.run 2 DepthFirst.strategy (.new 5) = some (.ok o, s) ∧
      o.bug = some ⟨.safety, "the flag is down"⟩ ∧ o.trace.length = 2 ∧ o.ending = .halted :=
    ⟨_, _, rfl, rfl, rfl, rfl⟩
  have hreplay := replay_reproduces (p := .depthFirst 5) trivial .start rfl hrun
    (fun b hb => by rw [hbug] at hb; cases hb; exact .inl rfl)
    (fun h => by rw [hending] at h; cases h)
  exact ⟨o, ⟨s, hrun⟩, hbug, htrace, hreplay⟩

end Interleave
