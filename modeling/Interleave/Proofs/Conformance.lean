import Interleave.Proofs.Pause
import Interleave.Strategy.Plan

/-!
# Interleave.Proofs.Conformance

What a run may rely on, whichever strategy makes its choices.

* `accept?_choice`, `payload_of_accept?`: the choice recorded for a reply, and the reply that a
  recorded choice gives.
* `Served`: a unit that is scheduled is enabled, a reply counts as one step and a refusal as none,
  and only a unit is refused without a reason.
* `Strategy.Conforms`: every answer is so, in every state that an invariant holds of.
* `watched_conforms`, `forked_conforms`: the liveness check over a strategy keeps this, and so does
  a trace to follow before it.
-/

namespace Interleave

/-- A unit must be enabled; any value will do. -/
def Request.Admits : (r : Request) → r.Reply → Prop
  | .unit candidates _, u => u ∈ enabledIds candidates
  | .boolean _, _ => True
  | .integer _, _ => True

theorem admits_of_accept? {r : Request} {c : Choice} {v : r.Reply} (h : r.accept? c = some v) :
    r.Admits v := by
  cases r with
  | unit candidates current =>
    obtain ⟨u, _, hu⟩ := Option.bind_eq_some_iff.1 h
    split at hu
    · rename_i hmem
      cases hu
      exact hmem
    · cases hu
  | boolean max => trivial
  | integer max => trivial

theorem accept?_choice {σ : Type} {P : Program σ} (x : Place σ) (v : (x.request P).Reply)
    (h : (x.request P).Admits v) : (x.request P).accept? (x.choice P v) = some v := by
  cases x with
  | scheduling p =>
    have h : v ∈ enabledIds (P.units p) := h
    simp [Request.accept?, Place.choice, Choice.unit?, h]
  | question q next => cases q <;> rfl

/-- The value that a choice takes, without the name of a fair one. -/
def Choice.payload : Choice → Choice
  | fairBoolean _ value => .boolean value
  | c => c

theorem payload_of_accept? {σ : Type} {P : Program σ} {x : Place σ} {c : Choice}
    {v : (x.request P).Reply} (h : (x.request P).accept? c = some v) :
    (x.choice P v).payload = c.payload := by
  cases x with
  | scheduling p =>
    cases c with
    | unit u =>
      simp only [Place.request, Request.accept?, Choice.unit?, Option.bind_some] at h
      split at h
      · cases h; rfl
      · cases h
    | boolean value => cases h
    | fairBoolean id value => cases h
    | integer value => cases h
  | question q next =>
    cases q <;> cases c <;> simp [Request.accept?, Choice.boolean?, Choice.integer?] at h <;>
      subst h <;> rfl

section Strategies

variable {τ : Type}

/-- What may come of a request to a strategy that has made `steps` steps: a result, and the steps
it has made then. -/
inductive Served (steps : Nat) (r : Request) : Except Refusal r.Reply → Nat → Prop where
  | reply {v : r.Reply} : r.Admits v → Served steps r (.ok v) (steps + 1)
  | quiescent : r.nothingEnabled = true → Served steps r (.error .noEnabledChoice) steps
  | exhausted {candidates : List Candidate} {current : Option Candidate} :
      r = .unit candidates current → Served steps r (.error .exhausted) steps
  | refused {refusal : Refusal} : refusal.isQuiescence = false →
      Served steps r (.error refusal) steps

theorem Served.add {steps after : Nat} {r : Request} {result : Except Refusal r.Reply}
    (h : Served steps r result after) (k : Nat) : Served (steps + k) r result (after + k) := by
  cases h with
  | reply hv => rw [Nat.add_right_comm]; exact .reply hv
  | quiescent hnothing => exact .quiescent hnothing
  | exhausted hunit => exact .exhausted hunit
  | refused hrefused => exact .refused hrefused

theorem Served.admits {steps after : Nat} {r : Request} {v : r.Reply}
    (h : Served steps r (.ok v) after) : r.Admits v := by
  cases h with
  | reply hv => exact hv

theorem Served.after_eq {steps after : Nat} {r : Request} {v : r.Reply}
    (h : Served steps r (.ok v) after) : after = steps + 1 := by
  cases h with
  | reply => rfl

/-- A strategy that makes proper answers as long as an invariant holds, which it keeps. -/
structure Strategy.Conforms (S : Strategy τ) (Inv : τ → Prop) : Prop where
  answer : ∀ r scene s, Inv s → Inv (S.answer r scene s).state
  prepare : ∀ s, Inv s → Inv (S.prepare s).2
  reset : ∀ s, Inv s → Inv (S.reset s)
  served : ∀ r scene s, Inv s →
    Served (S.steps s) r (S.answer r scene s).result (S.steps (S.answer r scene s).state)
  observed : ∀ r scene s, (S.answer r scene s).observer.observed = scene.observer.observed

/-- The states that a strategy can come into, whatever is asked of it and in whatever order. -/
inductive Strategy.Reaches (S : Strategy τ) (start : τ) : τ → Prop where
  | start : Reaches S start start
  | answer {s : τ} (r : Request) (scene : Scene) :
      Reaches S start s → Reaches S start (S.answer r scene s).state
  | prepare {s : τ} : Reaches S start s → Reaches S start (S.prepare s).2
  | reset {s : τ} : Reaches S start s → Reaches S start (S.reset s)

theorem Strategy.Conforms.of_reaches {S : Strategy τ} {Inv : τ → Prop} (h : S.Conforms Inv)
    {start s : τ} (hstart : Inv start) (hs : S.Reaches start s) : Inv s := by
  induction hs with
  | start => exact hstart
  | answer r scene _ ih => exact h.answer r scene _ ih
  | prepare _ ih => exact h.prepare _ ih
  | reset _ ih => exact h.reset _ ih

theorem randomWalk_conforms : RandomWalk.strategy.Conforms fun _ => True where
  answer _ _ _ _ := trivial
  prepare _ _ := trivial
  reset _ _ := trivial
  served r scene s _ := by
    show Served s.steps r (s.reply r).1 (s.reply r).2.steps
    cases r with
    | unit candidates current =>
      simp only [RandomWalk.reply]
      split
      · rename_i hnil
        exact .quiescent (by simp [Request.nothingEnabled, hnil])
      · rename_i first rest hcons
        refine .reply ?_
        show List.getD _ _ _ ∈ enabledIds candidates
        rw [hcons, List.getD_eq_getElem?_getD]
        cases hget : (first :: rest)[(s.draw (rest.length + 1)).1]? with
        | none => exact List.mem_cons_self
        | some u => exact List.mem_of_getElem? hget
    | boolean max => exact .reply trivial
    | integer max => exact .reply trivial
  observed _ _ _ := rfl

theorem visit_served {r : Request} {s : DepthFirst} {alternatives : Alternatives}
    {f : Nat → r.Reply} (hf : ∀ i, r.Admits (f i)) :
    Served s.depth r ((s.visit alternatives).1.map f) (s.visit alternatives).2.depth := by
  unfold DepthFirst.visit
  split
  · exact .reply (hf 0)
  · rename_i b ahead hahead
    split
    · exact .reply (hf b.taken)
    · exact .refused rfl

theorem depthFirst_conforms : DepthFirst.strategy.Conforms fun _ => True where
  answer _ _ _ _ := trivial
  prepare _ _ := trivial
  reset _ _ := trivial
  served r scene s _ := by
    show Served s.depth r (s.reply r).1 (s.reply r).2.depth
    cases r with
    | unit candidates current =>
      simp only [DepthFirst.reply]
      split
      · rename_i hnil
        exact .quiescent (by simp [Request.nothingEnabled, hnil])
      · rename_i first rest hcons
        refine visit_served fun i => ?_
        show List.getD _ _ _ ∈ enabledIds candidates
        rw [hcons, List.getD_eq_getElem?_getD]
        cases hget : (first :: rest)[i]? with
        | none => exact List.mem_cons_self
        | some u => exact List.mem_of_getElem? hget
    | boolean max => exact visit_served fun _ => trivial
    | integer max => exact visit_served fun _ => trivial
  observed _ _ _ := rfl

theorem Replay.recorded_eq_ok_iff {r : Request} {s : Replay} {v : r.Reply} :
    s.recorded r = .ok v ↔ (s.trace.get? s.cursor).bind r.accept? = some v := by
  unfold recorded
  cases s.trace.get? s.cursor with
  | none => simp
  | some c => cases haccept : r.accept? c <;> simp [haccept]

theorem replay_conforms : Replay.strategy.Conforms fun _ => True where
  answer _ _ _ _ := trivial
  prepare _ _ := trivial
  reset _ _ := trivial
  served r scene s _ := by
    show Served s.cursor r (s.reply r).1 (s.reply r).2.cursor
    unfold Replay.reply
    split
    · rename_i hnothing
      exact .quiescent hnothing
    · split
      · rename_i v hv
        obtain ⟨c, -, haccept⟩ := Option.bind_eq_some_iff.1 (Replay.recorded_eq_ok_iff.1 hv)
        exact .reply (admits_of_accept? haccept)
      · exact .refused rfl
  observed _ _ _ := rfl

end Strategies

section Watching

variable {τ : Type} {S : Strategy τ} {Inv : τ → Prop}

/-- A look changes no setting and counts no step. -/
structure Detector.Kept (d d' : Detector) : Prop where
  safetyPrefix : d'.safetyPrefix = d.safetyPrefix
  threshold : d'.threshold = d.threshold
  replayed : d'.replayed = d.replayed

theorem Detector.Kept.trans {d d' d'' : Detector} (h : d.Kept d') (h' : d'.Kept d'') : d.Kept d'' :=
  ⟨h'.safetyPrefix.trans h.safetyPrefix, h'.threshold.trans h.threshold,
    h'.replayed.trans h.replayed⟩

theorem seek_kept (scene : Scene) (fingerprint : UInt64) (d : Detector) :
    d.Kept (d.seek scene fingerprint) := by
  unfold Detector.seek
  split
  · exact ⟨rfl, rfl, rfl⟩
  · dsimp only
    split
    · exact ⟨rfl, rfl, rfl⟩
    · split
      · exact ⟨rfl, rfl, rfl⟩
      · split <;> exact ⟨rfl, rfl, rfl⟩

theorem heatUp_kept (observer : Observer) (last : Nat) (d : Detector) :
    d.Kept (d.heatUp observer last).2 := by
  unfold Detector.heatUp
  split
  · exact ⟨rfl, rfl, rfl⟩
  · split <;> exact ⟨rfl, rfl, rfl⟩

theorem observe_kept (steps : Nat) (scene : Scene) (d : Detector) :
    d.Kept (d.observe steps scene).2.1 := by
  unfold Detector.observe
  split
  · exact ⟨rfl, rfl, rfl⟩
  · split
    · exact ⟨rfl, rfl, rfl⟩
    · dsimp only
      split
      · exact (seek_kept _ _ d).trans (heatUp_kept _ _ _)
      · exact heatUp_kept _ _ d

theorem observe_observed (steps : Nat) (scene : Scene) (d : Detector) :
    (d.observe steps scene).2.2.observed = scene.observer.observed := by
  unfold Detector.observe
  split
  · rfl
  · split
    · rfl
    · exact Observer.capture_observed _ _ _ _

/-- What the liveness check finds before a request. -/
def Watched.finding (S : Strategy τ) (scene : Scene) (s : Watched τ) :
    Option Violation × Detector × Observer :=
  s.detector.observe (S.steps s.base + s.detector.replayed) scene

theorem finding_kept (scene : Scene) (s : Watched τ) :
    s.detector.Kept (s.finding S scene).2.1 := observe_kept _ _ _

theorem finding_observed (scene : Scene) (s : Watched τ) :
    (s.finding S scene).2.2.observed = scene.observer.observed := observe_observed _ _ _

/-- What the liveness check makes of a request. -/
inductive WatchedAnswer (S : Strategy τ) (r : Request) (scene : Scene) (s : Watched τ) :
    Answer (Watched τ) r.Reply → Prop where
  | confirmed {v : Violation} {d : Detector} {observer : Observer} :
      s.finding S scene = (some v, d, observer) →
      WatchedAnswer S r scene s ⟨.error (.liveness v), ⟨d, s.base⟩, observer⟩
  | followed {d : Detector} {observer : Observer} {c : Chase} {step : CycleStep}
      {value : r.Reply} :
      s.finding S scene = (none, d, observer) → d.chase = some c →
      c.cycle[c.cursor]? = some step → r.accept? step.choice = some value →
      WatchedAnswer S r scene s
        ⟨.ok value, ⟨{ d with chase := some c.step, replayed := d.replayed + 1 }, s.base⟩, observer⟩
  | forwarded {d : Detector} {observer : Observer} :
      s.finding S scene = (none, d, observer) →
      (∀ c step, d.chase = some c → c.cycle[c.cursor]? = some step →
        r.accept? step.choice = none) →
      WatchedAnswer S r scene s
        ⟨(S.answer r { scene with observer } s.base).result,
          ⟨{ d with chase := none }, (S.answer r { scene with observer } s.base).state⟩,
          (S.answer r { scene with observer } s.base).observer⟩

theorem watched_answer (S : Strategy τ) (r : Request) (scene : Scene) (s : Watched τ) :
    WatchedAnswer S r scene s ((Watched.strategy S).answer r scene s) := by
  show WatchedAnswer S r scene s (Watched.answer S r scene s)
  obtain ⟨found, d, observer, hfinding⟩ : ∃ found d observer,
      s.finding S scene = (found, d, observer) := ⟨_, _, _, rfl⟩
  have hobserve := hfinding
  unfold Watched.finding at hobserve
  simp only [Watched.answer, Detector.consult, hobserve]
  cases found with
  | some v => exact .confirmed hfinding
  | none =>
    -- the cycle gives a reply, or it is given up
    have hgiven : (∃ c step value, d.chase = some c ∧ c.cycle[c.cursor]? = some step ∧
          r.accept? step.choice = some value ∧ d.followCycle r =
            (.reply value, { d with chase := some c.step, replayed := d.replayed + 1 })) ∨
        ((∀ c step, d.chase = some c → c.cycle[c.cursor]? = some step →
          r.accept? step.choice = none) ∧
          d.followCycle r = (.forward, { d with chase := none })) := by
      cases hchase : d.chase with
      | none =>
        refine .inr ⟨by simp, ?_⟩
        simp only [Detector.followCycle, hchase]
        rw [← hchase]
      | some c =>
        cases hstep : c.cycle[c.cursor]? with
        | none =>
          refine .inr ⟨?_, by simp [Detector.followCycle, hchase, hstep]⟩
          rintro c' step' ⟨⟩ hstep'
          rw [hstep] at hstep'
          cases hstep'
        | some step =>
          cases haccept : r.accept? step.choice with
          | none =>
            refine .inr ⟨?_, by simp [Detector.followCycle, hchase, hstep, haccept]⟩
            rintro c' step' ⟨⟩ hstep'
            rw [hstep] at hstep'
            cases hstep'
            exact haccept
          | some value =>
            exact .inl ⟨c, step, value, rfl, hstep, haccept,
              by simp [Detector.followCycle, hchase, hstep, haccept]⟩
    rcases hgiven with ⟨c, step, value, hchase, hstep, haccept, hfollow⟩ | ⟨hnone, hfollow⟩
    · simp only [hfollow]
      exact .followed hfinding hchase hstep haccept
    · simp only [hfollow]
      exact .forwarded hfinding hnone

theorem watched_conforms (h : S.Conforms Inv) :
    (Watched.strategy S).Conforms fun s => Inv s.base where
  answer r scene s hs := by
    have ha := watched_answer S r scene s
    generalize (Watched.strategy S).answer r scene s = a at ha ⊢
    cases ha with
    | confirmed => exact hs
    | followed => exact hs
    | forwarded => exact h.answer _ _ _ hs
  prepare s hs := h.prepare _ hs
  reset s hs := h.reset _ hs
  served r scene s hs := by
    have ha := watched_answer S r scene s
    have hkept := finding_kept (S := S) scene s
    generalize (Watched.strategy S).answer r scene s = a at ha ⊢
    cases ha with
    | confirmed hfinding =>
      rw [hfinding] at hkept
      show Served _ r _ (S.steps s.base + _)
      rw [hkept.replayed]
      exact .refused rfl
    | followed hfinding _ _ haccept =>
      rw [hfinding] at hkept
      show Served _ r _ (S.steps s.base + (_ + 1))
      rw [hkept.replayed]
      exact .reply (admits_of_accept? haccept)
    | forwarded hfinding =>
      rw [hfinding] at hkept
      show Served _ r _ (S.steps _ + _)
      rw [hkept.replayed]
      exact (h.served _ _ _ hs).add _
  observed r scene s := by
    have ha := watched_answer S r scene s
    have hobserved := finding_observed (S := S) scene s
    generalize (Watched.strategy S).answer r scene s = a at ha ⊢
    cases ha with
    | confirmed hfinding => rw [hfinding] at hobserved; exact hobserved
    | followed hfinding => rw [hfinding] at hobserved; exact hobserved
    | forwarded hfinding =>
      rw [hfinding] at hobserved
      exact (h.observed _ _ _).trans hobserved

end Watching

section Following

variable {τ : Type} {S : Strategy τ} {Inv : τ → Prop}

/-- What a search for a critical transition makes of a request by itself; a step is counted when the
trace gives the reply. -/
inductive Consulted (r : Request) (t : Transition) : Verdict r.Reply × Transition → Prop where
  | reply {v : r.Reply} : r.Admits v →
      Consulted r t (.reply v, { t with followed := t.followed + 1 })
  | refuse : r.nothingEnabled = true → Consulted r t (.refuse .noEnabledChoice, t)
  | forward {t' : Transition} : t'.followed = t.followed → Consulted r t (.forward, t')

theorem Transition.recorded_eq_ok_iff {r : Request} {t : Transition} {v : r.Reply} :
    t.recorded r = .ok v ↔ (t.trace.get? t.followed).bind r.accept? = some v := by
  unfold recorded
  cases t.trace.get? t.followed with
  | none => simp
  | some c => cases haccept : r.accept? c <;> simp [haccept]

theorem Transition.admits_of_recorded {r : Request} {t : Transition} {v : r.Reply}
    (h : t.recorded r = .ok v) : r.Admits v := by
  obtain ⟨c, -, haccept⟩ := Option.bind_eq_some_iff.1 (recorded_eq_ok_iff.1 h)
  exact admits_of_accept? haccept

theorem wholeTrace_conforms : Transition.strategy.Conforms fun _ => True where
  answer _ _ _ _ := trivial
  prepare _ _ := trivial
  reset _ _ := trivial
  served r scene t _ := by
    show Served t.followed r (t.reply r).1 (t.reply r).2.followed
    unfold Transition.reply
    split
    · rename_i hnothing
      exact .quiescent hnothing
    · split
      · rename_i v hv
        exact .reply (Transition.admits_of_recorded hv)
      · exact .refused rfl
  observed _ _ _ := rfl

theorem consulted (r : Request) (t : Transition) : Consulted r t (t.consult r) := by
  unfold Transition.consult
  split
  · split
    · rename_i hnothing
      exact .refuse hnothing
    · split
      · rename_i v hv
        exact .reply (Transition.admits_of_recorded hv)
      · exact .forward rfl
  · exact .forward rfl

theorem forked_conforms (h : S.Conforms Inv) :
    (Forked.strategy S).Conforms fun s => Inv s.suffix where
  answer r scene s hs := by
    show Inv (Forked.answer S r scene s).state.suffix
    unfold Forked.answer
    have hconsulted := consulted r s.transition
    generalize s.transition.consult r = x at hconsulted ⊢
    cases hconsulted with
    | reply => exact hs
    | refuse => exact hs
    | forward => exact h.answer r scene s.suffix hs
  prepare s hs := h.prepare _ hs
  reset s hs := h.reset _ hs
  served r scene s hs := by
    show Served (s.transition.followed + S.steps s.suffix) r (Forked.answer S r scene s).result
      (Forked.steps S (Forked.answer S r scene s).state)
    unfold Forked.answer Forked.steps
    have hconsulted := consulted r s.transition
    generalize s.transition.consult r = x at hconsulted ⊢
    cases hconsulted with
    | reply hv =>
      dsimp only
      rw [Nat.add_right_comm]
      exact .reply hv
    | refuse hnothing => exact .quiescent hnothing
    | forward hfollowed =>
      dsimp only
      rw [hfollowed, Nat.add_comm _ (S.steps s.suffix), Nat.add_comm _ (S.steps _)]
      exact (h.served r scene s.suffix hs).add _
  observed r scene s := by
    show (Forked.answer S r scene s).observer.observed = _
    unfold Forked.answer
    have hconsulted := consulted r s.transition
    generalize s.transition.consult r = x at hconsulted ⊢
    cases hconsulted with
    | reply => rfl
    | refuse => rfl
    | forward => exact h.observed r scene s.suffix

end Following
end Interleave
