import Interleave.Proofs.Liveness.Carrying
import Interleave.Proofs.Outcome
import Interleave.Proofs.Pause.Descent
import Interleave.Proofs.Replay.Recording

/-!
# Interleave.Proofs.Replay.Liveness

The replay of a run that a liveness violation has ended. The violation is raised before the request
is answered, so the trace stops at the request, and how the replay ends there depends on what was
asked for.

* `refused_of_concludes`: a run that shows a liveness violation ends at a request refused with one.
* `mirrored_pauseAt`: the replay comes to that request.
* `Place.EndsReplay`: where a unit is asked for the replay is at its bound, but a question of the
  program is asked in vain.
* `liveness_trace_replays`: so it reads the whole trace and ends in one of these two ways.
* `restlessCoin`: a program whose liveness trace does not replay.
-/

namespace Interleave

section Violation

variable {σ τ : Type} {S : Strategy τ} {P : Program σ}

/-- By induction on the run: as long as no request is refused with a violation, there is none to
show. -/
theorem refused_of_concludes {start : τ} {x : Juncture σ τ} {r : Stop σ × Session τ}
    (h : x.Concludes S P r) {b : Bug} (hb : r.2.bug = some b) (hkind : b.kind = .liveness) :
    ∀ n, P.pauseAt S start n = x.getLeft? → x.session.LivenessOnlyIf False →
      ∃ m a v, P.pauseAt S start m = some a ∧ (a.answer S P).result = .error (.liveness v) ∧
        a.turn S P = .inr r := by
  induction h with
  | ended => exact fun n _ hnone => (hnone b hb hkind).elim
  | @turn a r hr ih =>
    intro n hn hnone
    by_cases hrefused : ∃ v, (a.answer S P).result = .error (.liveness v)
    · obtain ⟨v, hv⟩ := hrefused
      obtain ⟨r', hr'⟩ := turn_of_error (P := P) hv
      rw [hr'] at hr
      cases hr
      exact ⟨n, a, v, hn, hv, hr'⟩
    · refine ih hb (n + 1) ?_ ?_
      · rw [Program.pauseAt, hn]
        rfl
      · exact livenessOnlyIf_resume a.place (s := a.answered S P) hnone
          fun v hv => hrefused ⟨v, hv⟩

/-- Before the first choice there is no state that could have been repeated. -/
theorem length_pos_of_liveness {p : Plan} (hp : p.IsComposed) {r : Request} {scene : Scene}
    {s : p.State} {v : Violation}
    (hv : (p.strategy.answer r scene s).result = .error (.liveness v)) :
    0 < scene.trace.length := by
  induction p generalizing scene with
  | watch seed safetyPrefix threshold base ih =>
    have hanswer := watched_answer base.strategy r scene s
    change ((Watched.strategy base.strategy).answer r scene s).result = _ at hv
    generalize (Watched.strategy base.strategy).answer r scene s = answer at hanswer hv
    cases hanswer with
    | confirmed hfinding => exact (warms_of_found hfinding).2.1
    | followed => cases hv
    | forwarded =>
      have hbefore := ih hp hv
      exact hbefore
  | random => exact (ne_liveness_of_isBase (p := .random _ _) trivial _ _ _ _ hv).elim
  | depthFirst => exact (ne_liveness_of_isBase (p := .depthFirst _) trivial _ _ _ _ hv).elim
  | partialOrder => exact (ne_liveness_of_isBase (p := .partialOrder _) trivial _ _ _ _ hv).elim
  | replay => exact (ne_liveness_of_isBase (p := .replay _ _) trivial _ _ _ _ hv).elim
  | scripted => exact hp.elim
  | transition => exact hp.elim
  | wholeTrace => exact hp.elim

end Violation

section Following

variable {σ τ : Type} {S : Strategy τ} {Inv : τ → Prop} {P : Program σ} {T : Trace} {fair : Bool}

/-- By induction on the requests: the replay of a trace comes to every request of the run that the
trace begins with the choices before. -/
theorem mirrored_pauseAt (hS : S.Conforms Inv) (fair : Bool) {start : τ} (hinv : Inv start)
    (hsteps : S.steps start = 0) : ∀ (n : Nat) {a : Pause σ τ}, P.pauseAt S start n = some a →
      a.session.trace.toList <+: T.toList →
      ∃ y : Juncture σ Replay, a.Mirrored S Inv T fair y ∧
        (a.place.request P).nothingEnabled = false ∧ ∀ r, y.Concludes Replay.strategy P r →
          (P.opening Replay.strategy (.new T fair)).Concludes Replay.strategy P r := by
  intro n
  induction n with
  | zero =>
    intro a ha _
    have hbegin : Session.Mirrors S Inv T fair (.new start) (.new (.new T fair)) :=
      ⟨rfl, hinv, hsteps, rfl, fun _ => rfl, rfl⟩
    have hrel : Juncture.Related (Session.Mirrors S Inv T fair) S.isFull Replay.strategy.isFull P
        (P.opening S start) (P.opening Replay.strategy (.new T fair)) :=
      settle_related congruent_mirrors _ _ _ hbegin
    rw [Sum.getLeft?_eq_some_iff.1 ha] at hrel
    obtain ⟨hy, _, hask⟩ := mirrored_of_related hrel
    exact ⟨_, hy, hask, fun _ => id⟩
  | succ n ih =>
    intro b hb hprefix
    obtain ⟨a, ha, hab⟩ := pauseAt_of_succ hb
    obtain ⟨v, hv, _, htrace, _, _⟩ := turn_eq_inl hab
    rw [htrace, Trace.toList_push] at hprefix
    obtain ⟨rest, hrest⟩ := hprefix
    have hnext : T.get? a.session.trace.length = some (a.place.choice P v) := by
      rw [Trace.get?_eq_getElem?_toList, ← hrest, ← Trace.length_toList]
      simp
    have hlt : a.session.trace.length < T.length := by
      rw [← Trace.length_toList, ← Trace.length_toList, ← hrest]
      simp
    obtain ⟨y, hy, hask, hopening⟩ := ih ha ⟨_, (List.append_assoc _ _ _).symm.trans hrest⟩
    cases hy with
    | full hplace hempty hle => omega
    | waits h =>
      have hrel := turn_mirrored hS h hask hv hnext
      rw [hab] at hrel
      obtain ⟨hy, _, hask'⟩ := mirrored_of_related hrel
      exact ⟨_, hy, hask', fun r hr => hopening r (.turn hr)⟩

/-- How the replay of a trace of this length ends, where it comes to the end of the trace at a
place. -/
def Place.EndsReplay (length : Nat) (o : Outcome) : Place σ → Prop
  | .scheduling _ => o.ending = .stepBound ∧ o.bug = none ∧ o.divergence = none
  | .question _ _ => o.ending = .halted ∧ o.bugKind? = some .divergence ∧
      o.divergence = some (length, .traceEnded)

/-- The question is not answered, and nothing that follows is. -/
theorem turn_of_ended {q : Question} {next : Option q.request.Reply → Handler σ}
    {s : Session Replay} (hs : s.strategy = ⟨T, fair, T.length⟩) :
    (Pause.mk (.question q next) s).turn Replay.strategy P =
      .inr ((next none).unheard.1.stop, (s.fail (.diverged T.length .traceEnded)).tellAll
        (next none).unheard.2) := by
  have hreply : s.strategy.reply q.request =
      (.error (.diverged T.length .traceEnded), s.strategy) := by
    rw [replay_reply_ended (by cases q <;> rfl) (by rw [hs]), hs]
  have hanswer : (Pause.mk (.question q next) s).answer Replay.strategy P =
      ⟨.error (.diverged T.length .traceEnded), s.strategy, s.observer⟩ := by
    simp only [Pause.answer, Replay.strategy, Answer.blind, hreply]
    rfl
  rw [Pause.turn, Pause.answered, hanswer]
  exact settle_halted _ P (next none) (Session.fail_halted _ _)

theorem outcome_of_diverged {s t : Session Replay} (hbug : s.bug = none) {step : Nat}
    {reason : Mismatch} (htold : (s.fail (.diverged step reason)).OnlyTold t) (p : σ) :
    t.strategy = s.strategy ∧ t.trace = s.trace ∧
      (t.outcome Replay.strategy P p .halted).bugKind? = some .divergence ∧
      (t.outcome Replay.strategy P p .halted).divergence = some (step, reason) := by
  refine ⟨htold.strategy.trans (Session.fail_strategy _ _),
    htold.trace.trans (Session.fail_trace _ _), ?_, ?_⟩
  · rw [Outcome.bugKind?, outcome_bug_of_ne (by decide), htold.bug]
    simp [Session.fail, Session.recordBug, Session.say, hbug]
  · rw [outcome_divergence, htold.divergence]
    exact Session.fail_diverged step reason s

/-- A replay that has come to where its trace ends reads nothing more and ends, with the program in
the state `p`, as the place has it. -/
def Pause.EndsReplay (fair : Bool) (P : Program σ) (p : σ) (a : Pause σ τ)
    (y : Juncture σ Replay) : Prop :=
  ∃ ending t, y.Concludes Replay.strategy P (.ended ending p, t) ∧
    t.strategy = ⟨a.session.trace, fair, a.session.trace.length⟩ ∧ t.trace = a.session.trace ∧
    a.place.EndsReplay a.session.trace.length (t.outcome Replay.strategy P p ending)

theorem endsReplay_of_bound {p : σ} {u : Session τ} {s' : Session Replay}
    (h : Session.Mirrors S Inv u.trace fair { u with offered := s'.offered } s')
    (hclean : u.bug = none) :
    (Pause.mk (.scheduling p) u).EndsReplay fair P p (.inr (.ended .stepBound p, s')) := by
  have halike : ({ u with offered := s'.offered } : Session τ).forget = s'.forget := h.alike
  have hbug : s'.bug = none := (congrArg (·.bug) halike).symm.trans hclean
  refine ⟨.stepBound, s', .ended, h.replay, (congrArg (·.trace) halike).symm, rfl, ?_, ?_⟩
  · exact (outcome_bug_of_ne (by decide)).trans hbug
  · rw [outcome_divergence]
    exact (congrArg (·.divergence) halike).symm.trans h.clean.divergence

/-- The handler ends alike on both sides, as nothing is answered any more. -/
theorem endsReplay_of_question {q : Question} {next : Option q.request.Reply → Handler σ}
    {u : Session τ} {s' : Session Replay} (h : u.Mirrors S Inv u.trace fair s')
    (hclean : u.bug = none) {p : σ} {ending : Ending}
    (hstop : (next none).unheard.1.stop = .ended ending p) :
    (Pause.mk (.question q next) u).EndsReplay fair P p (.inl ⟨.question q next, s'⟩) := by
  have halike : u.forget = s'.forget := h.alike
  have hbug : s'.bug = none := (congrArg (·.bug) halike).symm.trans hclean
  have htrace : s'.trace = u.trace := (congrArg (·.trace) halike).symm
  have hhalted : ending = .halted := by
    cases hreturn : (next none).unheard.1 <;> rw [hreturn] at hstop <;> cases hstop <;> rfl
  subst hhalted
  obtain ⟨hstrategy, hsame, hkind, hdivergence⟩ := outcome_of_diverged (P := P) hbug
    (Session.OnlyTold.tellAll (next none).unheard.2
      (s'.fail (.diverged u.trace.length .traceEnded))) p
  refine ⟨.halted, _, .turn ?_, hstrategy.trans h.replay, hsame.trans htrace, rfl, hkind,
    hdivergence⟩
  rw [turn_of_ended h.replay, hstop]
  exact .ended

theorem endsReplay_of_refused {a : Pause σ τ} {y : Juncture σ Replay}
    (hy : a.Mirrored S Inv a.session.trace fair y) (hrun : a.session.halted = false)
    (hpos : 0 < a.session.trace.length) {v : Violation}
    (hv : (a.answer S P).result = .error (.liveness v)) {ending : Ending} {p : σ} {s : Session τ}
    (hturn : a.turn S P = .inr (.ended ending p, s)) : a.EndsReplay fair P p y := by
  obtain ⟨x, u⟩ := a
  rw [Pause.turn, hv] at hturn
  cases hy with
  | full hplace hempty hle h =>
    cases hplace
    cases hturn
    exact endsReplay_of_bound h (h.clean.bug hrun)
  | waits h hopen =>
    cases x with
    | scheduling q =>
      -- with all choices read, the replay is at its bound
      rcases hopen q rfl with hempty | hlt
      · have hzero : u.trace.length = 0 := by
          simpa [Trace.isEmpty, Trace.length] using hempty
        exact absurd hzero (Nat.ne_of_gt hpos)
      · exact absurd hlt (Nat.lt_irrefl _)
    | question q next =>
      have hsettle := (settle_halted S.isFull P (next none)
        (Session.fail_halted (.liveness v) _)).symm.trans hturn
      exact endsReplay_of_question h (h.clean.bug hrun) (Prod.mk.inj (Sum.inr.inj hsettle)).1

end Following

/-- The replay of a run that a liveness violation has ended reads the whole trace. Where a unit was
asked for when the violation was raised it ends at its bound, and where a question was asked it
diverges. -/
theorem liveness_trace_replays {σ : Type} {P : Program σ} {p : Plan} (hp : p.IsComposed)
    {s s' : p.State} (hs : p.strategy.Reaches p.start s) (hsteps : p.strategy.steps s = 0)
    {fuel : Nat} {o : Outcome} (hrun : P.run fuel p.strategy s = some (.ok o, s')) {b : Bug}
    (hb : o.bug = some b) (hkind : b.kind = .liveness) :
    ∃ a v, P.pauseAt p.strategy s o.trace.length = some a ∧
      (a.answer p.strategy P).result = .error (.liveness v) ∧
      ∃ fuel' o' r, P.run fuel' Replay.strategy (.new o.trace o.fair) = some (.ok o', r) ∧
        r.cursor = o.trace.length ∧ o'.trace = o.trace ∧
        a.place.EndsReplay o.trace.length o' := by
  obtain ⟨Inv, hS, hstart⟩ := p.conforms hp
  obtain ⟨⟨stop, t⟩, hdrive, hresult⟩ := Option.map_eq_some_iff.1 hrun
  cases stop with
  | panicked message => cases hresult
  | ended ending q =>
    cases hresult
    have hconcludes := drive_eq_some_iff.1 ⟨fuel, hdrive⟩
    have hnone : (P.opening p.strategy s).session.LivenessOnlyIf False :=
      livenessOnlyIf_settle _ _ nofun
    obtain ⟨n, a, v, ha, hv, hturn⟩ := refused_of_concludes hconcludes (outcome_liveness hb hkind)
      hkind 0 rfl hnone
    have htrace : t.trace = a.session.trace := by
      have hsame := resume_error_trace (P := P) p.strategy.isFull a.place (.liveness v)
        (a.answered p.strategy P)
      rw [Pause.turn, hv] at hturn
      rw [hturn] at hsame
      exact hsame
    have hlength := length_trace_pauseAt ha
    obtain ⟨y, hy, -, hopening⟩ := mirrored_pauseAt hS (p.strategy.isFair t.strategy)
      (hS.of_reaches hstart hs) hsteps n ha (List.prefix_refl _)
    obtain ⟨ending', t', hend, hstrategy, htrace', hends⟩ := endsReplay_of_refused hy
      (pauseAt_open ha).running (length_pos_of_liveness hp hv) hv hturn
    obtain ⟨fuel', hdrive'⟩ := drive_eq_some_iff.2 (hopening _ hend)
    rw [outcome_trace, htrace, hlength]
    rw [hlength] at hends hstrategy
    exact ⟨a, v, ha, hv, fuel', _, _, Option.map_eq_some_iff.2 ⟨_, hdrive', rfl⟩,
      by rw [hstrategy], (outcome_trace _ _ _ _ _).trans htrace', hends⟩

/-- A monitor waits for ever, and a unit that tells nothing tosses a coin whenever it runs. -/
def restlessCoin : Program Unit where
  fresh := ()
  start _ := .tell (.monitor "progress" "Waiting" .hot) (.finish ())
  units _ := [.actor ⟨1⟩]
  current _ := none
  execute _ _ := .ask (.boolean 2) fun _ => .finish ()
  hotMonitors _ := []
  label _ _ := "coin"

def hotOnce : Configuration :=
  { strategy := .depthFirst, unfairStepBound := 5, detectCycles := true, temperatureThreshold := 1 }

/-- The search of `restlessCoin` under the liveness check. -/
abbrev hotOncePlan : Plan := hotOnce.watching 0 (.depthFirst 5)

/-- The second toss comes where the first one was made, and nothing but the unit lies between. -/
theorem restlessCoin_violated :
    ∃ o s, restlessCoin.run 4 hotOncePlan.strategy hotOncePlan.start = some (.ok o, s) ∧
      o.bugKind? = some .liveness ∧ o.fair = false ∧
      o.trace = .ofList [.unit ⟨1⟩, .boolean false, .unit ⟨1⟩] := by
  obtain ⟨⟨result, s⟩, hrun, htest⟩ := (Option.any_eq_true _ _).1
    (show (restlessCoin.run 4 hotOncePlan.strategy hotOncePlan.start).any (fun result =>
      result.1.toOption.any fun o => o.bugKind? == some .liveness && !o.fair &&
        o.trace == .ofList [.unit ⟨1⟩, .boolean false, .unit ⟨1⟩]) = true by decide +kernel)
  cases result with
  | error message => cases htest
  | ok o => exact ⟨o, s, hrun, by simpa [Except.toOption, and_assoc] using htest⟩

theorem liveness_trace_replays_restlessCoin :
    ∃ o s b, restlessCoin.run 4 hotOncePlan.strategy hotOncePlan.start = some (.ok o, s) ∧
      o.bug = some b ∧ b.kind = .liveness ∧
      ∃ a v, restlessCoin.pauseAt hotOncePlan.strategy hotOncePlan.start o.trace.length = some a ∧
        (a.answer hotOncePlan.strategy restlessCoin).result = .error (.liveness v) ∧
        ∃ fuel o' r, restlessCoin.run fuel Replay.strategy (.new o.trace o.fair) =
            some (.ok o', r) ∧
          r.cursor = o.trace.length ∧ o'.trace = o.trace ∧
          a.place.EndsReplay o.trace.length o' := by
  obtain ⟨o, s, hrun, hliveness, -, -⟩ := restlessCoin_violated
  obtain ⟨b, hb, hkind⟩ := Option.map_eq_some_iff.1 hliveness
  exact ⟨o, s, b, hrun, hb, hkind,
    liveness_trace_replays (p := hotOncePlan) trivial .start rfl hrun hb hkind⟩

/-- The trace ends at a toss, so every replay of it that comes to an end diverges there. -/
theorem restlessCoin_diverges :
    hotOnce.plan 0 = .ok hotOncePlan ∧ ∃ o s,
      restlessCoin.run 4 hotOncePlan.strategy hotOncePlan.start = some (.ok o, s) ∧
      o.bugKind? = some .liveness ∧
      (∃ o' r, restlessCoin.run 3 Replay.strategy (.new o.trace o.fair) = some (.ok o', r)) ∧
      ∀ fuel o' r, restlessCoin.run fuel Replay.strategy (.new o.trace o.fair) = some (.ok o', r) →
        o'.divergence = some (3, .traceEnded) := by
  obtain ⟨o, s, hrun, hliveness, hfair, htrace⟩ := restlessCoin_violated
  obtain ⟨o', r, hreplay, hdivergence⟩ : ∃ o' r, restlessCoin.run 3 Replay.strategy
      (.new (.ofList [.unit ⟨1⟩, .boolean false, .unit ⟨1⟩]) false) = some (.ok o', r) ∧
      o'.divergence = some (3, .traceEnded) := ⟨_, _, rfl, rfl⟩
  rw [← htrace, ← hfair] at hreplay
  refine ⟨rfl, o, s, hrun, hliveness, ⟨o', r, hreplay⟩, fun fuel o'' r' hreplay' => ?_⟩
  have hsame := (run_mono (Nat.le_max_left fuel 3) hreplay').symm.trans
    (run_mono (Nat.le_max_right fuel 3) hreplay)
  cases hsame
  exact hdivergence

end Interleave
