import Interleave.Proofs.Conformance.Histories
import Interleave.Proofs.Pause.Simulation

/-!
# Interleave.Proofs.Conformance.Counting

That a strategy counts the steps of a run as the run itself does, however it is put together. Each
layer counts the steps that it decides by itself and adds those of the one below; a request that is
refused is not counted anywhere.

* `Session.Counted`: as many steps are counted as choices are recorded. A turn keeps this
  (`counted_turn`), so it holds whenever a request is made and at the end of the run.
* `Plan.steps_opened`: all layers begin a run at zero.
* `steps_eq_length`: after any history of calls.
-/

namespace Interleave

theorem Served.refused_eq {steps after : Nat} {r : Request} {refusal : Refusal}
    (h : Served steps r (.error refusal) after) : after = steps := by
  cases h <;> rfl

section Runs

variable {σ τ : Type} {S : Strategy τ} {Inv : τ → Prop} {P : Program σ} {start : τ}

/-- The strategy has counted the choices on record. -/
structure Session.Counted (S : Strategy τ) (Inv : τ → Prop) (s : Session τ) : Prop where
  inv : Inv s.strategy
  steps : S.steps s.strategy = s.trace.length

theorem counted_opening (hinv : Inv start) (hzero : S.steps start = 0) :
    (P.opening S start).session.Counted S Inv := by
  have hframe := settle_framed S.isFull P (P.start P.fresh) (.new start)
  constructor
  · rw [Program.opening, hframe.strategy]
    exact hinv
  · rw [Program.opening, hframe.strategy, hframe.trace]
    exact hzero

/-- A reply is counted once and recorded once, a refusal is neither. -/
theorem counted_turn (hS : S.Conforms Inv) {a : Pause σ τ} (h : a.session.Counted S Inv) :
    (a.turn S P).session.Counted S Inv := by
  have hserved : Served _ _ (a.answer S P).result (S.steps (a.answer S P).state) :=
    hS.served (a.place.request P) a.session.scene a.session.strategy h.inv
  constructor
  · rw [turn_strategy]
    exact hS.answer _ _ _ h.inv
  · rw [turn_strategy]
    cases hresult : (a.answer S P).result with
    | ok v =>
      rw [hresult] at hserved
      rw [turn_trace hresult, Trace.length_push, hserved.after_eq, h.steps]
    | error refusal =>
      have htrace : (a.turn S P).session.trace = a.session.trace := by
        unfold Pause.turn
        rw [hresult, resume_error_trace]
        rfl
      rw [hresult] at hserved
      rw [htrace, hserved.refused_eq, h.steps]

theorem counted_pauseAt (hS : S.Conforms Inv) (hinv : Inv start) (hzero : S.steps start = 0)
    {n : Nat} {a : Pause σ τ} (ha : P.pauseAt S start n = some a) : a.session.Counted S Inv := by
  refine pauseAt_induction (Q := fun a => a.session.Counted S Inv) (fun a ha => ?_)
    (fun a b h hab => ?_) n a ha
  · have hopening := counted_opening (P := P) hinv hzero
    rwa [ha] at hopening
  · have hturn := counted_turn (P := P) hS h
    rwa [hab] at hturn

theorem counted_concludes (hS : S.Conforms Inv) {x : Juncture σ τ} {r : Stop σ × Session τ}
    (hr : x.Concludes S P r) : x.session.Counted S Inv → r.2.Counted S Inv := by
  induction hr with
  | ended => exact id
  | turn _ ih => exact fun h => ih (counted_turn hS h)

theorem counted_drive (hS : S.Conforms Inv) (hinv : Inv start) (hzero : S.steps start = 0)
    {fuel : Nat} {r : Stop σ × Session τ} (hr : Session.drive fuel S P start = some r) :
    r.2.Counted S Inv :=
  counted_concludes hS (drive_eq_some_iff.1 ⟨fuel, hr⟩) (counted_opening hinv hzero)

end Runs

/-- A call that changes only which lengths of a trace are to be tried. -/
def Call.IsSetting : Call → Prop
  | update _ => True
  | narrow _ _ => True
  | under call => call.IsSetting
  | _ => False

namespace Plan

theorem steps_opened (p : Plan) (s : p.State) :
    p.strategy.steps (p.strategy.prepare s).2 = 0 ∧ p.strategy.steps (p.strategy.reset s) = 0 := by
  induction p with
  | watch seed safetyPrefix threshold base ih => exact ih s.base
  | transition trace fair fairBound maxWalks suffix ih =>
    obtain ⟨hprepare, hreset⟩ := ih s.suffix
    exact ⟨(Nat.zero_add _).trans hprepare, (Nat.zero_add _).trans hreset⟩
  | random seed bound => exact ⟨rfl, rfl⟩
  | depthFirst bound => exact ⟨rfl, rfl⟩
  | partialOrder bound => exact ⟨rfl, rfl⟩
  | replay trace fair => exact ⟨rfl, rfl⟩
  | scripted script => exact ⟨rfl, rfl⟩
  | wholeTrace trace fair fairBound maxWalks => exact ⟨rfl, rfl⟩

theorem steps_bisecting {p : Plan} {B : Bisecting p.State} (hB : p.bisecting? = some B)
    (s : p.State) : (∀ found, p.strategy.steps (B.update found s).2 = p.strategy.steps s) ∧
      ∀ left right, p.strategy.steps (B.narrow left right s) = p.strategy.steps s := by
  cases p, B, hB using bisecting_cases with
  | transition trace fair fairBound maxWalks suffix => exact ⟨fun _ => rfl, fun _ _ => rfl⟩
  | wholeTrace trace fair fairBound maxWalks => exact ⟨fun _ => rfl, fun _ _ => rfl⟩

theorem steps_setting {call : Call} (hcall : call.IsSetting) (p : Plan) (s : p.State) :
    p.strategy.steps (perform call p s) = p.strategy.steps s := by
  induction call generalizing p with
  | update found =>
    unfold perform
    cases hB : p.bisecting? with
    | none => rfl
    | some B => exact (steps_bisecting hB s).1 found
  | narrow left right =>
    unfold perform
    cases hB : p.bisecting? with
    | none => rfl
    | some B => exact (steps_bisecting hB s).2 left right
  | under call ih =>
    cases p with
    | watch seed safetyPrefix threshold base =>
      exact congrArg (· + s.detector.replayed) (ih hcall base s.base)
    | transition trace fair fairBound maxWalks suffix =>
      exact congrArg (s.transition.followed + ·) (ih hcall suffix s.suffix)
    | random seed bound => rfl
    | depthFirst bound => rfl
    | partialOrder bound => rfl
    | replay trace fair => rfl
    | scripted script => rfl
    | wholeTrace trace fair fairBound maxWalks => rfl
  | ask r scene => exact hcall.elim
  | prepare => exact hcall.elim
  | reset => exact hcall.elim

theorem steps_ready (p : Plan) (calls : List Call) {opened : Call}
    (hopened : opened = .prepare ∨ opened = .reset) (settings : List Call)
    (hsettings : ∀ call ∈ settings, call.IsSetting) :
    p.strategy.steps (p.after (calls ++ [opened] ++ settings)) = 0 := by
  induction settings using List.reverseRecOn with
  | nil =>
    obtain ⟨hprepare, hreset⟩ := p.steps_opened (p.after calls)
    rw [List.append_nil, after_concat]
    rcases hopened with rfl | rfl
    · exact hprepare
    · exact hreset
  | append_singleton settings call ih =>
    rw [← List.append_assoc, after_concat, steps_setting (hsettings call (by simp))]
    exact ih fun call hcall => hsettings call (by simp [hcall])

/-- What is called on a strategy in a run or between two runs continues its history. -/
theorem conforms_histories (p : Plan) (hp : p.Unscripted) (calls : List Call) :
    p.strategy.Conforms fun s => ∃ later, s = p.after (calls ++ later) := by
  have hkept : ∀ s, (∃ later, s = p.after (calls ++ later)) → p.Kept s := by
    rintro _ ⟨later, rfl⟩
    exact p.kept_after hp _
  have hcall : ∀ call s, (∃ later, s = p.after (calls ++ later)) →
      ∃ later, perform call p s = p.after (calls ++ later) := by
    rintro call _ ⟨later, rfl⟩
    exact ⟨later ++ [call], by rw [← List.append_assoc, after_concat]⟩
  exact
    { answer := fun r scene => hcall (.ask r scene)
      prepare := hcall .prepare
      reset := hcall .reset
      served := fun r scene s hs => (p.conforms_kept hp).served r scene s (hkept s hs)
      observed := (p.conforms_kept hp).observed }

end Plan

/-- In every run that begins with `prepare` or `reset`, after any history of calls, as many steps
are counted as choices are recorded: at every request, and however the run ends. The lengths of a
trace to be tried may have been changed in between. What a run leaves behind is such a history
again, so that this holds of the runs after it. -/
theorem steps_eq_length {σ : Type} (p : Plan) (hp : p.Unscripted) (calls : List Call)
    (opened : Call) (hopened : opened = .prepare ∨ opened = .reset) (settings : List Call)
    (hsettings : ∀ call ∈ settings, call.IsSetting) (P : Program σ) :
    let history := calls ++ [opened] ++ settings
    (∀ n a, P.pauseAt p.strategy (p.after history) n = some a →
      p.strategy.steps a.session.strategy = a.session.trace.length) ∧
    (∀ fuel stop s, Session.drive fuel p.strategy P (p.after history) = some (stop, s) →
      p.strategy.steps s.strategy = s.trace.length ∧
        ∃ later, s.strategy = p.after (history ++ later)) ∧
    ∀ fuel o s, P.run fuel p.strategy (p.after history) = some (.ok o, s) →
      o.steps = o.trace.length := by
  intro history
  have hS := p.conforms_histories hp history
  have hinv : ∃ later, p.after history = p.after (history ++ later) := ⟨[], by rw [List.append_nil]⟩
  have hzero : p.strategy.steps (p.after history) = 0 :=
    p.steps_ready calls hopened settings hsettings
  have hdrive : ∀ fuel stop s,
      Session.drive fuel p.strategy P (p.after history) = some (stop, s) →
        s.Counted p.strategy fun s => ∃ later, s = p.after (history ++ later) :=
    fun fuel stop s hr => counted_drive hS hinv hzero hr
  refine ⟨fun n a ha => (counted_pauseAt hS hinv hzero ha).steps, fun fuel stop s hr => ?_,
    fun fuel o t hrun => ?_⟩
  · have hcounted := hdrive fuel stop s hr
    exact ⟨hcounted.steps, hcounted.inv⟩
  · obtain ⟨⟨stop, s⟩, hr, hresult⟩ := Option.map_eq_some_iff.1 hrun
    cases stop with
    | panicked message => cases hresult
    | ended ending q =>
      cases hresult
      have hframe := Session.Framed.checkRest (p.strategy.isFair s.strategy) P q ending s
      rw [outcome_trace, ← (hdrive fuel _ s hr).steps, ← hframe.strategy]
      rfl

def Stop.panics {σ : Type} : Stop σ → Bool
  | .panicked _ => true
  | .ended _ _ => false

/-- Two units take turns and ask for a boolean each time; the first one panics at a `false`. -/
def skittish : Program Nat where
  fresh := 0
  start p := .finish p
  units p := if p < 2 then [.actor ⟨1⟩, .actor ⟨2⟩] else []
  current _ := none
  execute _ p := .ask (.boolean 2) fun answer =>
    if p = 0 ∧ answer = some false then .panic "startled" else .finish (p + 1)
  hotMonitors _ := []
  label _ u := u.text

/-- The first run panics at the answer of the search below, the second one gets the other answer. -/
theorem steps_eq_length_skittish :
    checkedHandOff.Unscripted ∧ ∃ message s later,
      Session.drive 5 checkedHandOff.strategy skittish
          (checkedHandOff.after ([] ++ [.reset] ++ [.under (.narrow 0 2)])) =
            some (.panicked message, s) ∧
      checkedHandOff.strategy.steps s.strategy = s.trace.length ∧
      ∃ o t, skittish.run 5 checkedHandOff.strategy
          (checkedHandOff.after ([.reset, .under (.narrow 0 2)] ++ later ++ [.prepare] ++ [])) =
            some (.ok o, t) ∧
        o.steps = o.trace.length ∧ 0 < o.steps := by
  have hruns : ((Session.drive 5 checkedHandOff.strategy skittish
      (checkedHandOff.after ([] ++ [.reset] ++ [.under (.narrow 0 2)]))).any fun first =>
        first.1.panics && (skittish.run 5 checkedHandOff.strategy
          (checkedHandOff.strategy.prepare first.2.strategy).2).any fun second =>
            second.1.toOption.any fun o => decide (0 < o.steps)) = true := by decide +kernel
  obtain ⟨⟨stop, s⟩, hfirst, hboth⟩ := (Option.any_eq_true _ _).1 hruns
  obtain ⟨hpanics, hany⟩ := Bool.and_eq_true_iff.1 hboth
  obtain ⟨⟨result, t⟩, hsecond, hsome⟩ := (Option.any_eq_true _ _).1 hany
  obtain ⟨hsteps, later, hlater⟩ := (steps_eq_length checkedHandOff trivial [] .reset (.inr rfl)
    [.under (.narrow 0 2)] (by simp [Call.IsSetting]) skittish).2.1 5 stop s hfirst
  have hstart : (checkedHandOff.strategy.prepare s.strategy).2 =
      checkedHandOff.after ([.reset, .under (.narrow 0 2)] ++ later ++ [.prepare] ++ []) := by
    rw [List.append_nil, Plan.after_concat, hlater]
    rfl
  rw [hstart] at hsecond
  cases stop with
  | ended ending q => cases hpanics
  | panicked message =>
    cases result with
    | error message => cases hsome
    | ok o =>
      refine ⟨trivial, message, s, later, hfirst, hsteps, o, t, hsecond, ?_, ?_⟩
      · exact (steps_eq_length checkedHandOff trivial _ .prepare (.inl rfl) [] nofun
          skittish).2.2 5 o t hsecond
      · exact of_decide_eq_true hsome

end Interleave
