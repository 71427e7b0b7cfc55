import Interleave.Campaign
import Interleave.Proofs.Conformance.Plain
import Interleave.Proofs.DepthFirst.Exhaustive
import Interleave.Proofs.Liveness.Heating
import Interleave.Proofs.Liveness.Lasso

/-!
# Interleave.Proofs.Liveness.Unseen

The liveness check over a program in which no monitor is ever hot. States are looked at and cycles
are judged, but none is repeated, so that nothing of it is seen from outside.

* `Program.NeverHot`: whatever the code is answered, it makes no monitor hot.
* `Session.Cool`: no monitor is hot, in no state that has been looked at, and no cycle is repeated.
* `Session.unwatched`: a session as it is without the check.
* `handler_unwatched`, `round_unwatched`: handlers and scheduling points commute with it.
* `shows_unwatched`: so do whole series of runs.
-/

namespace Interleave

section Programs

variable {σ : Type}

/-- Whether a monitor becomes hot. -/
def Notice.heats : Notice → Bool
  | .monitor _ _ status => status.isHot
  | .heat _ status => status.isHot
  | _ => false

/-- Code that makes no monitor hot, whatever it is answered, and that ends in states that `Keeps`
holds of unless the run has been halted. -/
def Handler.Quiet (Keeps : σ → Prop) : Handler σ → (halted : Bool) → Prop
  | .finish p, halted => halted = false → Keeps p
  | .abort _, _ => True
  | .panic _, _ => True
  | .ask q next, halted =>
    (halted = false → ∀ v ∈ q.request.replies, (next (some v)).Quiet Keeps false) ∧
      (next none).Quiet Keeps true
  | .check holds _ next, halted =>
    if !halted && holds then (next true).Quiet Keeps false else (next false).Quiet Keeps true
  | .tell n next, halted => n.heats = false ∧ next.Quiet Keeps halted

/-- Code that makes no monitor hot from the start and in all states that `Keeps` holds of. -/
structure Program.Quiet (P : Program σ) (Keeps : σ → Prop) : Prop where
  start : (P.start P.fresh).Quiet Keeps false
  execute : ∀ {p u}, Keeps p → u ∈ enabledIds (P.units p) → (P.execute u p).Quiet Keeps false

/-- No monitor ever becomes hot, whatever is scheduled and chosen. -/
def Program.NeverHot (P : Program σ) : Prop := ∃ Keeps, P.Quiet Keeps

end Programs

section Observers

/-- No monitor is hot, and none was in a state that has been photographed. -/
structure Observer.Cool (o : Observer) : Prop where
  now : ∀ name, (o.heatOf name).isHot = false
  before : ∀ step state, o.snapshotAt? step = some state →
    ∀ name, (state.heatOf name).isHot = false

theorem Observer.cool_empty : Observer.empty.Cool where
  now name := by simp [Observer.heatOf, Observer.empty, Observed.heatOf, Observed.empty, Heat.isHot]
  before step state h := by
    cases (Album.get?_empty step).symm.trans h

theorem heatOf_changeMonitor (digest : Element → UInt64) (changed name : String)
    (f : Monitor → Monitor) (o : Observed) :
    (o.changeMonitor digest changed f).heatOf name =
      if compare name changed = .eq then (f ((o.monitors.get? changed).getD .fresh)).heat
      else o.heatOf name := by
  unfold Observed.changeMonitor Observed.heatOf
  dsimp only
  rw [Table.insert, Table.get?_update]
  split <;> rfl

theorem Observer.Cool.note {o : Observer} (h : o.Cool) {n : Notice} (hn : n.heats = false) :
    (o.note Element.digest n).Cool := by
  refine ⟨fun name => ?_, h.before⟩
  have hnow : (o.observed.heatOf name).isHot = false := h.now name
  have hchanged : ∀ (changed : String) (f : Monitor → Monitor),
      (∀ m, (f m).heat.isHot = false) →
        ((o.observed.changeMonitor Element.digest changed f).heatOf name).isHot = false := by
    intro changed f hf
    rw [heatOf_changeMonitor]
    split
    · exact hf _
    · exact hnow
  show ((o.observed.note Element.digest n).heatOf name).isHot = false
  cases n with
  | monitor changed state heat => exact hchanged changed _ fun _ => hn
  | heat changed heat => exact hchanged changed _ fun _ => hn
  | enter => exact hnow
  | exit => exact hnow
  | localHash => exact hnow
  | log => exact hnow

theorem Observer.Cool.capture {o : Observer} (h : o.Cool) (step : Nat)
    (candidates : List Candidate) : (o.capture Element.digest step candidates).2.Cool := by
  cases hget : o.snapshotAt? step with
  | some state =>
    rw [capture_of_known hget]
    exact h
  | none =>
    obtain ⟨o', hphoto, hcapture⟩ := capture_of_new Element.digest hget candidates
    rw [hcapture]
    refine ⟨fun name => ?_, fun i state hstate name => ?_⟩
    · show (o'.observed.heatOf name).isHot = false
      rw [hphoto.observed]
      exact h.now name
    · rw [hphoto.snapshotAt? i] at hstate
      split at hstate
      · cases hstate
        rw [heatOf_look]
        exact h.now name
      · exact h.before i state hstate name

theorem Cycle.hotMonitors_of_cool {c : Cycle}
    (h : ∀ step ∈ c, ∀ name, (step.state.heatOf name).isHot = false) : c.hotMonitors = [] := by
  cases c with
  | nil => rfl
  | cons first rest =>
    refine List.eq_nil_iff_forall_not_mem.2 fun name hname => ?_
    have hhot := (mem_hotMonitors_iff (List.cons_ne_nil _ _)).1 hname first List.mem_cons_self
    rw [h first List.mem_cons_self name] at hhot
    cases hhot

theorem Cycle.snapshotAt?_of_mem_collect {trace : Trace} {o : Observer} {start : Nat}
    {step : CycleStep} (h : step ∈ Cycle.collect trace o start) :
    o.snapshotAt? step.index = some step.state := by
  obtain ⟨index, -, hstep⟩ := List.mem_filterMap.1 h
  obtain ⟨choice, -, hstep⟩ := Option.bind_eq_some_iff.1 hstep
  obtain ⟨state, hstate, hstep⟩ := Option.bind_eq_some_iff.1 hstep
  cases hstep
  exact hstate

theorem chase_seek_of_cool {scene : Scene} (h : scene.observer.Cool) {d : Detector}
    (hnone : d.chase = none) (fingerprint : UInt64) : (d.seek scene fingerprint).chase = none := by
  cases hchase : (d.seek scene fingerprint).chase with
  | none => rfl
  | some c =>
    obtain ⟨cycle, pick, _, rfl, _, hhot, _⟩ := seek_spec hnone hchase
    exact absurd (Cycle.hotMonitors_of_cool fun step hstep name =>
      h.before _ _ (Cycle.snapshotAt?_of_mem_collect hstep) name) hhot

/-- In a cool state no cycle is worth repeating. -/
theorem observe_of_cool (steps : Nat) {scene : Scene} {d : Detector} (h : scene.observer.Cool)
    (hnone : d.chase = none) :
    ∃ d' o, d.observe steps scene = (none, d', o) ∧ d'.chase = none ∧ o.Cool := by
  unfold Detector.observe
  split
  · exact ⟨d, _, rfl, hnone, h⟩
  · rename_i last c hlast
    split
    · exact ⟨d, _, rfl, hnone, h⟩
    · have hcaptured := h.capture last scene.units
      generalize scene.observer.capture Element.digest last scene.units = captured at hcaptured ⊢
      obtain ⟨sighting, o⟩ := captured
      dsimp only at hcaptured ⊢
      have hsought : (if sighting.repeated then d.seek { scene with observer := o }
          sighting.fingerprint else d).chase = none := by
        split
        · exact chase_seek_of_cool hcaptured hnone _
        · exact hnone
      rw [heatUp_of_cold fun c hc => by rw [hsought] at hc; cases hc]
      exact ⟨_, _, rfl, rfl, hcaptured⟩

end Observers

section Sessions

variable {σ τ : Type} {S : Strategy τ} {reply : (r : Request) → τ → Except Refusal r.Reply × τ}
  {Inv : τ → Prop} {P : Program σ} {Keeps : σ → Prop}

/-- A session as it is without the check: no photographs are taken. -/
def Session.unwatched (s : Session (Watched τ)) : Session τ :=
  { s with strategy := s.strategy.base, observer := ⟨s.observer.observed, .empty⟩ }

/-- No cycle is being repeated, and none has been in this run. -/
structure Watched.Idle (Inv : τ → Prop) (s : Watched τ) : Prop where
  base : Inv s.base
  chase : s.detector.chase = none
  replayed : s.detector.replayed = 0

theorem Watched.Idle.isFair_eq {s : Watched τ} (h : s.Idle Inv) :
    (Watched.strategy S).isFair s = S.isFair s.base := by
  show (s.detector.chase.isSome || _) = _
  rw [h.chase]
  rfl

theorem Watched.Idle.atBound_eq {s : Watched τ} (h : s.Idle Inv) :
    (Watched.strategy S).atBound s = S.atBound s.base := by
  show (s.detector.chase.isNone && _) = _
  rw [h.chase]
  rfl

/-- A session in which the check has found nothing. -/
structure Session.Cool (Inv : τ → Prop) (s : Session (Watched τ)) : Prop where
  strategy : s.strategy.Idle Inv
  observer : s.observer.Cool

theorem Session.Cool.of_eq {s t : Session (Watched τ)} (h : s.Cool Inv)
    (hstrategy : t.strategy = s.strategy) (hobserver : t.observer = s.observer) : t.Cool Inv :=
  ⟨hstrategy ▸ h.strategy, hobserver ▸ h.observer⟩

namespace Session

variable {s : Session (Watched τ)}

theorem unwatched_recordBug (kind : BugKind) (message : String) (s : Session (Watched τ)) :
    (s.recordBug kind message).unwatched = s.unwatched.recordBug kind message := by
  obtain ⟨strategy, trace, observer, offered, halted, bug, _, _, _, _⟩ := s
  cases bug <;> rfl

theorem Cool.recordBug (h : s.Cool Inv) (kind : BugKind) (message : String) :
    (s.recordBug kind message).Cool Inv := by
  unfold Session.recordBug
  split <;> exact h.of_eq rfl rfl

theorem unwatched_fail (refusal : Refusal) (s : Session (Watched τ)) :
    (s.fail refusal).unwatched = s.unwatched.fail refusal := by
  cases refusal with
  | noEnabledChoice => rfl
  | exhausted => rfl
  | diverged step reason => exact unwatched_recordBug _ _ _
  | liveness violation => exact unwatched_recordBug _ _ _

theorem Cool.fail (h : s.Cool Inv) (refusal : Refusal) : (s.fail refusal).Cool Inv := by
  cases refusal with
  | noEnabledChoice => exact h.of_eq rfl rfl
  | exhausted => exact h.of_eq rfl rfl
  | diverged step reason =>
    have hdiverged : Cool Inv { s with divergence := some (step, reason) } := h.of_eq rfl rfl
    exact hdiverged.recordBug _ _
  | liveness violation => exact h.recordBug _ _

theorem unwatched_check (holds : Bool) (message : String) (s : Session (Watched τ)) :
    s.unwatched.check holds message =
      ((s.check holds message).1, (s.check holds message).2.unwatched) := by
  unfold check
  rw [show s.unwatched.halted = s.halted from rfl]
  split
  · rfl
  · split
    · rfl
    · rw [unwatched_recordBug]

theorem Cool.check (h : s.Cool Inv) (holds : Bool) (message : String) :
    (s.check holds message).2.Cool Inv := by
  unfold Session.check
  split
  · exact h
  · split
    · exact h
    · exact h.recordBug _ _

theorem unwatched_tell (n : Notice) (s : Session (Watched τ)) :
    (s.tell n).unwatched = s.unwatched.tell n := by
  cases n <;> rfl

theorem Cool.tell (h : s.Cool Inv) {n : Notice} (hn : n.heats = false) : (s.tell n).Cool Inv := by
  have hnoted : (s.observer.note Element.digest n).Cool := h.observer.note hn
  cases n <;> exact ⟨h.strategy, hnoted⟩

end Session

/-- The check leaves every request to the strategy below. -/
theorem answer_of_cool (hS : S.Plain reply Inv) (r : Request) {scene : Scene} {s : Watched τ}
    (hchase : s.detector.chase = none) (hscene : scene.observer.Cool) :
    ∃ d o, (Watched.strategy S).answer r scene s =
        ⟨(reply r s.base).1, ⟨d, (reply r s.base).2⟩, o⟩ ∧
      d.chase = none ∧ d.replayed = s.detector.replayed ∧ o.Cool ∧
      o.observed = scene.observer.observed := by
  obtain ⟨d, o, hobserve, hnone, ho⟩ :=
    observe_of_cool (S.steps s.base + s.detector.replayed) hscene hchase
  have hkept := observe_kept (S.steps s.base + s.detector.replayed) scene s.detector
  have hobserved := observe_observed (S.steps s.base + s.detector.replayed) scene s.detector
  rw [hobserve] at hkept hobserved
  refine ⟨d, o, ?_, hnone, hkept.replayed, ho, hobserved⟩
  show Watched.answer S r scene s = _
  simp only [Watched.answer, Detector.consult, hobserve, Detector.followCycle, hnone, hS.answer_eq]
  rfl

theorem request_unwatched (hS : S.Plain reply Inv) {s : Session (Watched τ)} (h : s.Cool Inv)
    (r : Request) :
    s.unwatched.request S r = ((s.request (Watched.strategy S) r).1,
        (s.request (Watched.strategy S) r).2.unwatched) ∧
      (s.request (Watched.strategy S) r).2.Cool Inv ∧
      ∀ v, (s.request (Watched.strategy S) r).1 = .ok v → v ∈ r.replies := by
  obtain ⟨d, o, hanswer, hchase, hreplayed, ho, hobserved⟩ :=
    answer_of_cool hS r h.strategy.chase (show s.scene.observer.Cool from h.observer)
  have hrequest : s.request (Watched.strategy S) r = ((reply r s.strategy.base).1,
      { s with strategy := ⟨d, (reply r s.strategy.base).2⟩, observer := o }) := by
    rw [Session.request, hanswer]
  rw [hrequest]
  refine ⟨?_, ⟨⟨hS.keeps _ _ h.strategy.base, hchase, hreplayed.trans h.strategy.replayed⟩, ho⟩,
    fun v hv => hS.mem_replies h.strategy.base hv⟩
  rw [Session.request, hS.answer_eq]
  unfold Session.unwatched
  dsimp only
  rw [hobserved]
  rfl

theorem ask_unwatched (hS : S.Plain reply Inv) {s : Session (Watched τ)} (h : s.Cool Inv)
    (q : Question) :
    s.unwatched.ask S q = ((s.ask (Watched.strategy S) q).1,
        (s.ask (Watched.strategy S) q).2.unwatched) ∧
      (s.ask (Watched.strategy S) q).2.Cool Inv ∧
      ((s.ask (Watched.strategy S) q).1 = none ∧
          (s.ask (Watched.strategy S) q).2.halted = true ∨
        s.halted = false ∧ (s.ask (Watched.strategy S) q).2.halted = false ∧
          ∃ v ∈ q.request.replies, (s.ask (Watched.strategy S) q).1 = some v) := by
  unfold Session.ask
  rw [show s.unwatched.halted = s.halted from rfl]
  cases hhalted : s.halted with
  | true => exact ⟨rfl, h, .inl ⟨rfl, hhalted⟩⟩
  | false =>
    obtain ⟨heq, hcool, hreplies⟩ := request_unwatched hS h q.request
    have hrunning : (s.request (Watched.strategy S) q.request).2.halted = false := hhalted
    simp only [Bool.false_eq_true, if_false, heq]
    generalize s.request (Watched.strategy S) q.request = asked at hcool hreplies hrunning ⊢
    obtain ⟨result, t⟩ := asked
    cases result with
    | ok v => exact ⟨rfl, hcool.of_eq rfl rfl, .inr ⟨trivial, hrunning, v, hreplies v rfl, rfl⟩⟩
    | error refusal =>
      exact ⟨Prod.ext rfl (Session.unwatched_fail refusal t).symm, hcool.fail refusal,
        .inl ⟨rfl, Session.fail_halted refusal t⟩⟩

/-- A handler that makes no monitor hot does the same under the check and without it. By induction
on the handler, for halted runs as well: after a refusal it goes on without replies. -/
theorem handler_unwatched (hS : S.Plain reply Inv) (h : Handler σ) :
    ∀ s : Session (Watched τ), s.Cool Inv → h.Quiet Keeps s.halted →
      h.run S s.unwatched = ((h.run (Watched.strategy S) s).1,
          (h.run (Watched.strategy S) s).2.unwatched) ∧
        (h.run (Watched.strategy S) s).2.Cool Inv ∧
        ∀ p, (h.run (Watched.strategy S) s).1 = .finished p →
          (h.run (Watched.strategy S) s).2.halted = false → Keeps p := by
  induction h with
  | finish p =>
    intro s hs hquiet
    refine ⟨rfl, hs, ?_⟩
    rintro _ ⟨⟩ hrunning
    exact hquiet hrunning
  | abort p => exact fun s hs _ => ⟨rfl, hs, nofun⟩
  | panic message => exact fun s hs _ => ⟨rfl, hs, nofun⟩
  | ask q next ih =>
    intro s hs hquiet
    obtain ⟨hreplied, hrefused⟩ := hquiet
    obtain ⟨heq, hcool, hanswer⟩ := ask_unwatched hS hs q
    rw [Handler.run, Handler.run, heq]
    rcases hanswer with ⟨hnone, hhalted⟩ | ⟨hrunning, hgoing, v, hv, hsome⟩
    · refine ih _ _ hcool ?_
      rw [hnone, hhalted]
      exact hrefused
    · refine ih _ _ hcool ?_
      rw [hsome, hgoing]
      exact hreplied hrunning v hv
  | check holds message next ih =>
    intro s hs hquiet
    rw [Handler.run, Handler.run, Session.unwatched_check]
    refine ih _ _ (hs.check holds message) ?_
    unfold Handler.Quiet at hquiet
    unfold Session.check
    cases hhalted : s.halted with
    | true => simpa [hhalted] using hquiet
    | false => cases holds <;> simpa [hhalted] using hquiet
  | tell n next ih =>
    intro s hs hquiet
    rw [Handler.run, Handler.run, ← Session.unwatched_tell]
    refine ih _ (hs.tell hquiet.1) ?_
    rw [Session.tell_halted]
    exact hquiet.2

/-- A run between two units or at its end, without the check. -/
abbrev Session.unwatchedAt :
    (σ × Session (Watched τ)) ⊕ (Stop σ × Session (Watched τ)) →
      (σ × Session τ) ⊕ (Stop σ × Session τ) :=
  Sum.map (Prod.map id Session.unwatched) (Prod.map id Session.unwatched)

/-- Between two units the check has found nothing and the state is one that `Keeps` holds of. -/
abbrev Session.CoolAt (Inv : τ → Prop) (Keeps : σ → Prop) :
    (σ × Session (Watched τ)) ⊕ (Stop σ × Session (Watched τ)) → Prop :=
  Sum.elim (fun at_ => at_.2.Cool Inv ∧ (at_.2.halted = false → Keeps at_.1))
    fun r => r.2.Cool Inv

theorem afterHandler_unwatched (hS : S.Plain reply Inv) {h : Handler σ} {s : Session (Watched τ)}
    (hs : s.Cool Inv) (hquiet : h.Quiet Keeps s.halted) :
    Session.afterHandler (h.run S s.unwatched) =
        Session.unwatchedAt (Session.afterHandler (h.run (Watched.strategy S) s)) ∧
      Session.CoolAt Inv Keeps (Session.afterHandler (h.run (Watched.strategy S) s)) := by
  obtain ⟨heq, hcool, hkeeps⟩ := handler_unwatched hS h s hs hquiet
  rw [heq]
  generalize h.run (Watched.strategy S) s = r at hcool hkeeps ⊢
  obtain ⟨ending, t⟩ := r
  cases ending with
  | finished p => exact ⟨rfl, hcool, hkeeps p rfl⟩
  | aborted p => exact ⟨rfl, hcool⟩
  | panicked message => exact ⟨rfl, hcool⟩

/-- Go on with what the strategy has answered at a scheduling point. -/
def Session.dispatch (S : Strategy τ) (P : Program σ) (p : σ) :
    Except Refusal UnitId × Session τ → (σ × Session τ) ⊕ (Stop σ × Session τ)
  | (.error .noEnabledChoice, s) => .inr (.ended .quiescent p, s)
  | (.error .exhausted, s) => .inr (.ended .stepBound p, s)
  | (.error refusal, s) => .inr (.ended .halted p, s.fail refusal)
  | (.ok u, s) =>
    afterHandler ((P.execute u p).run S ({ s with trace := s.trace.push (.unit u) }.say
      ("<ScheduleLog> Schedule '" ++ P.label p u ++ "'")))

theorem round_of_offered {p : σ} {s : Session τ} (h : s.halted = false)
    (he : (enabledIds (P.units p)).isEmpty = false) (hf : S.atBound s.strategy = false) :
    Session.round S P (p, s) = Session.dispatch S P p
      ({ s with offered := P.units p }.request S (.unit (P.units p) (P.current p))) := by
  have h : ¬ s.halted = true := by simp [h]
  have he : ¬ (enabledIds (P.units p)).isEmpty = true := by simp [he]
  have hf : ¬ S.atBound s.strategy = true := by simp [hf]
  simp only [Session.round, if_neg h, if_neg he, if_neg hf]
  generalize Session.request S (.unit (P.units p) (P.current p)) { s with offered := P.units p } =
    asked
  obtain ⟨result, t⟩ := asked
  cases result with
  | error refusal => cases refusal <;> rfl
  | ok u => rfl

theorem dispatch_unwatched (hS : S.Plain reply Inv) (hP : P.Quiet Keeps) {p : σ} (hp : Keeps p)
    {result : Except Refusal UnitId} {s : Session (Watched τ)} (hs : s.Cool Inv)
    (hrunning : s.halted = false) (hresult : ∀ u, result = .ok u → u ∈ enabledIds (P.units p)) :
    Session.dispatch S P p (result, s.unwatched) =
        Session.unwatchedAt (Session.dispatch (Watched.strategy S) P p (result, s)) ∧
      Session.CoolAt Inv Keeps (Session.dispatch (Watched.strategy S) P p (result, s)) := by
  cases result with
  | error refusal =>
    cases refusal with
    | noEnabledChoice => exact ⟨rfl, hs⟩
    | exhausted => exact ⟨rfl, hs⟩
    | diverged step reason =>
      exact ⟨congrArg (fun t => Sum.inr (Stop.ended .halted p, t))
        (Session.unwatched_fail (.diverged step reason) s).symm, hs.fail (.diverged step reason)⟩
    | liveness violation =>
      exact ⟨congrArg (fun t => Sum.inr (Stop.ended .halted p, t))
        (Session.unwatched_fail (.liveness violation) s).symm, hs.fail (.liveness violation)⟩
  | ok u =>
    have hscheduled : Session.Cool Inv ({ s with trace := s.trace.push (.unit u) }.say
      ("<ScheduleLog> Schedule '" ++ P.label p u ++ "'")) := hs.of_eq rfl rfl
    have hquiet := hP.execute hp (hresult u rfl)
    rw [← hrunning] at hquiet
    exact afterHandler_unwatched hS hscheduled hquiet

theorem round_unwatched (hS : S.Plain reply Inv) (hP : P.Quiet Keeps) {p : σ}
    {s : Session (Watched τ)} (hs : s.Cool Inv) (hp : s.halted = false → Keeps p) :
    Session.round S P (p, s.unwatched) =
        Session.unwatchedAt (Session.round (Watched.strategy S) P (p, s)) ∧
      Session.CoolAt Inv Keeps (Session.round (Watched.strategy S) P (p, s)) := by
  have hfull := hs.strategy.atBound_eq (S := S)
  have hsame : s.unwatched.halted = s.halted := rfl
  cases hrunning : s.halted with
  | true =>
    rw [round_of_halted hrunning, round_of_halted (hsame.trans hrunning)]
    exact ⟨rfl, hs⟩
  | false =>
    cases hempty : (enabledIds (P.units p)).isEmpty with
    | true =>
      rw [round_of_quiescent hrunning hempty, round_of_quiescent (hsame.trans hrunning) hempty]
      exact ⟨rfl, hs⟩
    | false =>
      cases hbound : S.atBound s.strategy.base with
      | true =>
        rw [round_of_full hrunning hempty (hfull.trans hbound),
          round_of_full (s := s.unwatched) (hsame.trans hrunning) hempty hbound]
        exact ⟨rfl, hs⟩
      | false =>
        have hoffered : Session.Cool Inv { s with offered := P.units p } := hs.of_eq rfl rfl
        obtain ⟨heq, hcool, hreplies⟩ :=
          request_unwatched hS hoffered (.unit (P.units p) (P.current p))
        rw [round_of_offered hrunning hempty (hfull.trans hbound),
          round_of_offered (s := s.unwatched) (hsame.trans hrunning) hempty hbound]
        change Session.dispatch S P p
          (Session.request S (.unit (P.units p) (P.current p))
            (Session.unwatched { s with offered := P.units p })) = _ ∧ _
        rw [heq]
        exact dispatch_unwatched hS hP (hp hrunning) hcool hrunning hreplies

theorem drive_unwatched (hS : S.Plain reply Inv) (hP : P.Quiet Keeps) (fuel : Nat)
    {start : Watched τ} (hstart : start.Idle Inv) :
    Session.drive fuel S P start.base =
        (Session.drive fuel (Watched.strategy S) P start).map (Prod.map id Session.unwatched) ∧
      ∀ r, Session.drive fuel (Watched.strategy S) P start = some r → r.2.Cool Inv := by
  have hnew : Session.Cool Inv (.new start) := ⟨hstart, Observer.cool_empty⟩
  obtain ⟨heq, hcool⟩ := afterHandler_unwatched hS hnew hP.start
  unfold Session.drive
  rw [show (Session.new start.base) = Session.unwatched (.new start) from rfl, heq]
  generalize Session.afterHandler ((P.start P.fresh).run (Watched.strategy S) (.new start)) = begun
    at hcool ⊢
  cases begun with
  | inr r =>
    refine ⟨rfl, fun r' hr => ?_⟩
    cases hr
    exact hcool
  | inl at_ =>
    refine iterate_map (Q := fun r : Stop σ × Session (Watched τ) => r.2.Cool Inv)
      (I := fun at_ : σ × Session (Watched τ) =>
        at_.2.Cool Inv ∧ (at_.2.halted = false → Keeps at_.1)) (fun at_ hat => ?_) fuel at_ hcool
    obtain ⟨hround, hkeeps⟩ := round_unwatched hS hP hat.1 hat.2
    refine ⟨congrArg some hround, fun x hx => ?_⟩
    cases hx
    exact hkeeps

theorem Session.unwatched_checkRest (fair : Bool) (p : σ) (ending : Ending)
    (s : Session (Watched τ)) :
    s.unwatched.checkRest fair P p ending = (s.checkRest fair P p ending).unwatched := by
  unfold checkRest
  show (if s.bug.isNone && _ && _ && _ then _ else _) = _
  split
  · rw [unwatched_recordBug]
  · rfl

/-- What a run has shown does not tell whether the check was there. -/
theorem outcome_unwatched (p : σ) (ending : Ending) {s : Session (Watched τ)} (hs : s.Cool Inv) :
    s.unwatched.outcome S P p ending = s.outcome (Watched.strategy S) P p ending := by
  have hsteps : (Watched.strategy S).steps (s.checkRest (S.isFair s.strategy.base) P p
      ending).strategy = S.steps (s.checkRest (S.isFair s.strategy.base) P p
      ending).strategy.base := by
    rw [(Session.Framed.checkRest _ P p ending s).strategy]
    show S.steps s.strategy.base + s.strategy.detector.replayed = _
    rw [hs.strategy.replayed]
    rfl
  unfold Session.outcome
  dsimp only
  rw [hs.strategy.isFair_eq, show S.isFair s.unwatched.strategy = S.isFair s.strategy.base from rfl,
    Session.unwatched_checkRest, hsteps]
  rfl

theorem run_unwatched (hS : S.Plain reply Inv) (hP : P.Quiet Keeps) (fuel : Nat)
    {start : Watched τ} (hstart : start.Idle Inv) :
    P.run fuel S start.base =
        (P.run fuel (Watched.strategy S) start).map (Prod.map id Watched.base) ∧
      ∀ x, P.run fuel (Watched.strategy S) start = some x → x.2.Idle Inv := by
  obtain ⟨hdrive, hcool⟩ := drive_unwatched hS hP fuel hstart
  unfold Program.run
  rw [hdrive]
  cases hr : Session.drive fuel (Watched.strategy S) P start with
  | none =>
    refine ⟨rfl, fun x hx => ?_⟩
    cases hx
  | some r =>
    have hr := hcool r hr
    obtain ⟨stop, s⟩ := r
    cases stop with
    | ended ending p =>
      refine ⟨?_, fun x hx => ?_⟩
      · simp only [Option.map_some, Prod.map, id]
        rw [outcome_unwatched p ending hr]
        rfl
      · cases hx
        exact hr.strategy
    | panicked message =>
      refine ⟨rfl, fun x hx => ?_⟩
      cases hx
      exact hr.strategy

end Sessions

section Series

variable {σ τ η : Type} {S : Strategy τ}
  {reply : (r : Request) → τ → Except Refusal r.Reply × τ} {Inv : τ → Prop} {P : Program σ}

def Report.retitled (title : String) (r : Report) : Report := { r with strategy := title }

theorem recordRun_retitled (title : String) (r : Report) (attach fair : Bool)
    (result : Except String Outcome) :
    (r.retitled title).recordRun attach fair result =
      (r.recordRun attach fair result).map (Prod.map id (Report.retitled title)) := by
  cases result with
  | error message => rfl
  | ok o =>
    obtain ⟨bug, _, _, _, _, _, _, divergence⟩ := o
    cases divergence with
    | some d => rfl
    | none => cases bug <;> rfl

/-- A series as it is without the check, under another title. -/
def Campaign.unwatched (title : String) (k : Campaign (Watched τ) η) : Campaign τ η :=
  ⟨k.strategy.base, k.host, k.report.retitled title, k.completed⟩

/-- The end of a series without the check. -/
def Campaign.unwatchedEnd (title : String) (x : Except Fault Report × Watched τ × η) :
    Except Fault Report × τ × η :=
  (x.1.map (Report.retitled title), x.2.1.base, x.2.2)

theorem Watched.Idle.prepare (hS : S.Plain reply Inv) {s : Watched τ} (h : s.Idle Inv) :
    ((Watched.strategy S).prepare s).2.Idle Inv := by
  refine ⟨hS.prepare _ h.base, ?_, rfl⟩
  show s.detector.chase.map Chase.rewind = none
  rw [h.chase]
  rfl

/-- Take a run into a series. -/
def Campaign.conclude (S : Strategy τ) (H : Host η) (c : Configuration) (k : Campaign τ η)
    (result : Except String Outcome) (s : τ) : Campaign τ η ⊕ (Except Fault Report × τ × η) :=
  let host := H.iterationTeardown (H.setup k.host)
  match k.report.recordRun c.attachTraces (S.isFair s) result with
  | .error fault => .inr (.error fault, s, host)
  | .ok (_, report) =>
    if (S.prepare s).1 then .inl ⟨(S.prepare s).2, host, report, k.completed + 1⟩
    else .inr (.ok report, (S.prepare s).2, host)

theorem Campaign.round_eq (fuel : Nat) (S : Strategy τ) (P : Program σ) (H : Host η)
    (c : Configuration) (k : Campaign τ η) :
    Campaign.round fuel S P H c k =
      if (Budget.ofConfiguration c).stops H k.completed k.host then
        some (.inr (.ok k.report, k.strategy, k.host))
      else (P.run fuel S k.strategy).map fun x => k.conclude S H c x.1 x.2 := by
  unfold Campaign.round Campaign.runOnce
  rw [Option.map_map]
  rfl

theorem conclude_unwatched (hS : S.Plain reply Inv) (H : Host η) (c : Configuration)
    (title : String) (k : Campaign (Watched τ) η) (result : Except String Outcome) {s : Watched τ}
    (hs : s.Idle Inv) :
    (k.unwatched title).conclude S H c result s.base =
        Sum.map (Campaign.unwatched title) (Campaign.unwatchedEnd title)
          (k.conclude (Watched.strategy S) H c result s) ∧
      Sum.elim (fun k' => k'.strategy.Idle Inv) (fun _ => True)
        (k.conclude (Watched.strategy S) H c result s) := by
  unfold Campaign.conclude
  rw [hs.isFair_eq, show (k.unwatched title).report = k.report.retitled title from rfl,
    recordRun_retitled]
  cases k.report.recordRun c.attachTraces (S.isFair s.base) result with
  | error fault => exact ⟨rfl, trivial⟩
  | ok recorded =>
    obtain ⟨found, report⟩ := recorded
    have hcontinues : ((Watched.strategy S).prepare s).1 = (S.prepare s.base).1 := rfl
    dsimp only [Except.map, Prod.map]
    rw [hcontinues]
    cases (S.prepare s.base).1 with
    | false => exact ⟨rfl, trivial⟩
    | true => exact ⟨rfl, hs.prepare hS⟩

theorem campaign_round_unwatched (hS : S.Plain reply Inv) (hP : P.NeverHot) (H : Host η)
    (c : Configuration) (fuel : Nat) (title : String) {k : Campaign (Watched τ) η}
    (hk : k.strategy.Idle Inv) :
    Campaign.round fuel S P H c (k.unwatched title) =
        (Campaign.round fuel (Watched.strategy S) P H c k).map
          (Sum.map (Campaign.unwatched title) (Campaign.unwatchedEnd title)) ∧
      ∀ x, Campaign.round fuel (Watched.strategy S) P H c k = some x →
        Sum.elim (fun k' => k'.strategy.Idle Inv) (fun _ => True) x := by
  obtain ⟨Keeps, hquiet⟩ := hP
  obtain ⟨hrun, hidle⟩ := run_unwatched hS hquiet fuel hk
  rw [Campaign.round_eq, Campaign.round_eq,
    show (k.unwatched title).completed = k.completed from rfl,
    show (k.unwatched title).host = k.host from rfl,
    show (k.unwatched title).strategy = k.strategy.base from rfl, hrun]
  split
  · refine ⟨rfl, fun x hx => ?_⟩
    cases hx
    trivial
  · cases hx : P.run fuel (Watched.strategy S) k.strategy with
    | none =>
      refine ⟨rfl, fun x hx => ?_⟩
      cases hx
    | some x =>
      obtain ⟨heq, hnext⟩ := conclude_unwatched hS H c title k x.1 (hidle x hx)
      refine ⟨congrArg some heq, fun y hy => ?_⟩
      cases hy
      exact hnext

/-- A series of runs under the check is the series without it. -/
theorem campaign_unwatched (hS : S.Plain reply Inv) (hP : P.NeverHot) (H : Host η)
    (c : Configuration) (fuel : Nat) {start : Watched τ} (hbase : Inv start.base)
    (hchase : start.detector.chase = none) (host : η) :
    Campaign.run fuel S P H c start.base host =
      (Campaign.run fuel (Watched.strategy S) P H c start host).map
        (Campaign.unwatchedEnd (S.description start.base)) := by
  have hreset : ((Watched.strategy S).reset start).Idle Inv := by
    refine ⟨hS.reset _ hbase, ?_, rfl⟩
    show start.detector.chase.map _ = none
    rw [hchase]
    rfl
  have hround : ∀ k : Campaign (Watched τ) η, k.strategy.Idle Inv → _ :=
    fun k hk => campaign_round_unwatched hS hP H c fuel (S.description start.base) hk
  have hiterate := (iterate_map (Q := fun _ => True) hround fuel
    ⟨(Watched.strategy S).reset start, host, .new ((Watched.strategy S).description start), 0⟩
    hreset).1
  unfold Campaign.run
  rw [show Campaign.mk (S.reset start.base) host (Report.new (S.description start.base)) 0 =
    Campaign.unwatched (S.description start.base) ⟨(Watched.strategy S).reset start, host,
      .new ((Watched.strategy S).description start), 0⟩ from rfl, hiterate, Option.map_map,
    Option.map_map]
  rfl

end Series

/-- What a series of runs comes to, whatever its strategy is called. -/
def Plan.shows {σ η : Type} (fuel : Nat) (P : Program σ) (H : Host η) (host : η)
    (c : Configuration) (p : Plan) : Option (Except Fault Report × η) :=
  (Campaign.run fuel p.strategy P H c p.start host).map fun x =>
    (x.1.map (Report.retitled ""), x.2.2)

/-- What a series of runs under a configuration comes to. -/
def Configuration.shows {σ η : Type} (fuel : Nat) (P : Program σ) (H : Host η) (host : η)
    (drawn : UInt64) (c : Configuration) : Except Fault (Option (Except Fault Report × η)) :=
  (c.campaignPlan drawn).map (Plan.shows fuel P H host c)

section Configurations

variable {σ η : Type} {P : Program σ}

theorem Plan.shows_watching (hP : P.NeverHot) {c : Configuration} {drawn : UInt64} {base : Plan}
    (hbase : c.basePlan drawn = .ok base) (H : Host η) (host : η) (fuel : Nat) :
    (c.watching drawn base).shows fuel P H host c = base.shows fuel P H host c := by
  obtain ⟨reply, Inv, hplain, hstart⟩ := plain_of_basePlan hbase
  have hrun := campaign_unwatched hplain hP H c fuel
    (show Inv (c.watching drawn base).start.base from hstart) rfl host
  unfold Plan.shows
  rw [show base.start = (c.watching drawn base).start.base from rfl, hrun, Option.map_map]
  refine congrArg (fun f => Option.map f _) (funext fun x => ?_)
  obtain ⟨result, s, h⟩ := x
  cases result <;> rfl

theorem shows_eq (hP : P.NeverHot) (c : Configuration) (drawn : UInt64) (H : Host η) (host : η)
    (fuel : Nat) : c.shows fuel P H host drawn =
      (c.validate.bind fun _ => c.basePlan drawn).map (Plan.shows fuel P H host c) := by
  unfold Configuration.shows Configuration.campaignPlan Configuration.plan
  cases c.validate with
  | error fault => rfl
  | ok =>
    cases hbase : c.basePlan drawn with
    | error fault => rfl
    | ok base =>
      show Except.ok (Plan.shows fuel P H host c (if c.detectCycles then _ else _)) = .ok _
      split
      · rw [Plan.shows_watching hP hbase]
      · rfl

/-- Where no monitor ever becomes hot, the liveness check shows nothing and hides nothing: a series
of runs ends in the same fault or in the same report, with it and without it. -/
theorem shows_unwatched (hP : P.NeverHot) {c : Configuration} (hseed : c.seed.isSome = true)
    (drawn drawn' : UInt64) (H : Host η) (host : η) (fuel : Nat) :
    { c with detectCycles := true }.shows fuel P H host drawn =
      { c with detectCycles := false }.shows fuel P H host drawn' := by
  have hbase : { c with detectCycles := true }.basePlan drawn =
      { c with detectCycles := false }.basePlan drawn' := by
    obtain ⟨seed, hseed⟩ := Option.isSome_iff_exists.1 hseed
    unfold Configuration.basePlan
    dsimp only
    rw [hseed]
    rfl
  rw [shows_eq hP, shows_eq hP, hbase]
  rfl

end Configurations

/-- A monitor waits, but not for anything that must come. -/
def calmWorker : Program Unit := ticking [.monitor "progress" "Waiting" .cold] []

theorem calmWorker_neverHot : calmWorker.NeverHot :=
  ⟨fun _ => True, ⟨rfl, fun _ => trivial⟩, fun _ _ _ => trivial⟩

def calm : Configuration := { strategy := .depthFirst, unfairStepBound := 5, seed := some 1 }

/-- The report that a series ended in. -/
def shownReport? : Except Fault (Option (Except Fault Report × Unit)) → Option Report
  | .ok (some (.ok report, _)) => some report
  | _ => none

theorem eq_of_shownReport? {x : Except Fault (Option (Except Fault Report × Unit))}
    {report : Report} (h : shownReport? x = some report) : x = .ok (some (.ok report, ())) := by
  unfold shownReport? at h
  split at h
  · cases h
    rfl
  · cases h

/-- The same state is come back to until the bound is reached. -/
theorem calmWorker_shows_same : calmWorker.NeverHot ∧ calm.seed.isSome = true ∧
    ∃ report, { calm with detectCycles := true }.shows 20 calmWorker quietHost () 0 =
        .ok (some (.ok report, ())) ∧
      { calm with detectCycles := false }.shows 20 calmWorker quietHost () 7 =
        .ok (some (.ok report, ())) ∧
      report.schedules = 1 ∧ report.maxSteps = 5 := by
  obtain ⟨report, hreport, htest⟩ := (Option.any_eq_true _ _).1
    (show (shownReport? ({ calm with detectCycles := false }.shows 20 calmWorker quietHost ()
      7)).any (fun report => report.schedules == 1 && report.maxSteps == 5) = true by
        decide +kernel)
  have hoff := eq_of_shownReport? hreport
  have hsame := shows_unwatched calmWorker_neverHot (c := calm) rfl 0 7 quietHost () 20
  rw [Bool.and_eq_true, beq_iff_eq, beq_iff_eq] at htest
  exact ⟨calmWorker_neverHot, rfl, report, hsame.trans hoff, hoff, htest⟩

end Interleave
