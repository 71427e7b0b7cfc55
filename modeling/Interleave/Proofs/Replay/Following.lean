import Interleave.Proofs.Demands
import Interleave.Proofs.Pause.Descent
import Interleave.Proofs.Replay.Recording
import Interleave.Trace.Step

/-!
# Interleave.Proofs.Replay.Following

A replay decides by its trace alone, whichever program it is run on and whether or not the trace was
recorded there.

* `Trace.Denies`: why a trace has no reply to a request.
* `Session.Follows`: the choices made so far carry the first values of the trace.
* `replay_turn`: a request is answered with the next choice of the trace, or the replay diverges
  there and ends.
* `replay_pauseAt`, `replay_ends`: by induction on the requests. The trace is used up by replies, so
  there are finitely many.
* `replayed_of_concludes`: what is left of a replay at its end.
-/

namespace Interleave

namespace Trace

/-- The values that the steps of a trace carry. -/
def payloads (t : Trace) : List Payload := t.toList.map Step.payloadOf

@[simp] theorem payloads_empty : empty.payloads = [] := rfl

@[simp] theorem payloads_push (t : Trace) (c : Choice) :
    (t.push c).payloads = t.payloads ++ [Step.payloadOf c] := by
  simp [payloads]

theorem take_payloads_succ {t : Trace} {n : Nat} {c : Choice} (h : t.get? n = some c) :
    t.payloads.take (n + 1) = t.payloads.take n ++ [Step.payloadOf c] := by
  rw [List.take_add_one, payloads, List.getElem?_map, ← get?_eq_getElem?_toList, h]
  rfl

/-- Why a trace has no reply to a request after `n` steps: it is over, or its next choice is of
another kind or a unit that is not enabled. -/
inductive Denies (t : Trace) (n : Nat) (r : Request) : Mismatch → Prop where
  | over : n = t.length → Denies t n r .traceEnded
  | unfit {c : Choice} : t.get? n = some c → (∀ v, ¬ c.Serves r v) →
      Denies t n r (Replay.mismatch r c)

/-- What there is of a replay after `m` steps, with the ending unless it has panicked. The steps
carry the values of the first `m` choices of the trace; where the replay has diverged, the program
was at a request then which the trace denies. -/
structure Replayed {σ : Type} (t : Trace) (fair : Bool) (P : Program σ) (m : Nat) (made : Trace)
    (divergence : Option (Nat × Mismatch)) (ending? : Option Ending) : Prop where
  le : m ≤ t.length
  payloads : made.payloads = t.payloads.take m
  diverges : ∀ step reason, divergence = some (step, reason) → step = m ∧
    ∃ a, P.pauseAt Replay.strategy (.new t fair) m = some a ∧ t.Denies m (a.request P) reason
  bound : ending? = some .stepBound → 0 < t.length ∧ m = t.length

end Trace

def Stop.ending? {σ : Type} : Stop σ → Option Ending
  | ended ending _ => some ending
  | panicked _ => none

theorem payloadOf_of_accept? {σ : Type} {P : Program σ} {x : Place σ} {c : Choice}
    {v : (x.request P).Reply} (h : (x.request P).accept? c = some v) :
    Trace.Step.payloadOf (x.choice P v) = Trace.Step.payloadOf c := by
  have hpayload : ∀ c : Choice, Trace.Step.payloadOf c.payload = Trace.Step.payloadOf c := by
    intro c
    cases c <;> rfl
  rw [← hpayload, payload_of_accept? h, hpayload]

/-- A replay has made the first `n` steps of its trace. -/
structure Session.Follows (T : Trace) (fair : Bool) (n : Nat) (s : Session Replay) : Prop where
  le : n ≤ T.length
  payloads : s.trace.payloads = T.payloads.take n
  strategy : s.strategy = ⟨T, fair, n⟩

section Following

variable {σ : Type} {P : Program σ} {T : Trace} {fair : Bool}

/-- Where something is enabled, a request is answered with the next choice, or the reason why it
does not fit. -/
theorem replay_answers {r : Request} {s : Replay} (hr : r.nothingEnabled = false)
    (hle : s.cursor ≤ s.trace.length) :
    (∃ c v, s.trace.get? s.cursor = some c ∧ r.accept? c = some v ∧
      s.reply r = (.ok v, { s with cursor := s.cursor + 1 })) ∨
    ∃ reason, s.trace.Denies s.cursor r reason ∧
      s.reply r = (.error (.diverged s.cursor reason), s) := by
  cases hc : s.trace.get? s.cursor with
  | none =>
    have hlength : s.trace.length ≤ s.cursor := by
      rw [Trace.get?_eq_getElem?_toList] at hc
      simpa [Trace.length_toList] using hc
    exact .inr ⟨_, .over (Nat.le_antisymm hle hlength),
      replay_reply_ended hr (Nat.le_antisymm hle hlength)⟩
  | some c =>
    cases hv : r.accept? c with
    | some v => exact .inl ⟨c, v, rfl, hv, replay_reply hr hc hv⟩
    | none =>
      refine .inr ⟨_, .unfit hc fun v hserves => ?_, by
        simp [Replay.reply, hr, Replay.recorded, hc, hv]⟩
      rw [accept?_eq_some_iff.2 hserves] at hv
      cases hv

/-- A replay is at its bound where it has read a trace that is not empty to its end. -/
theorem Session.Follows.of_full {n : Nat} {s : Session Replay} (h : s.Follows T fair n)
    (hfull : Replay.strategy.isFull s = true) : 0 < T.length ∧ n = T.length := by
  have hread : (!s.strategy.trace.isEmpty &&
      decide (s.strategy.trace.length ≤ s.strategy.cursor)) = true := hfull
  rw [h.strategy, Bool.and_eq_true, decide_eq_true_eq] at hread
  refine ⟨Nat.pos_of_ne_zero fun hzero => ?_, Nat.le_antisymm h.le hread.2⟩
  simp [Trace.isEmpty, Array.eq_empty_of_size_eq_zero hzero] at hread

theorem Session.Follows.replayed {n : Nat} {stop : Stop σ} {s : Session Replay}
    (h : s.Follows T fair n)
    (hdiverges : ∀ step reason, s.divergence = some (step, reason) → step = n ∧
      ∃ a, P.pauseAt Replay.strategy (.new T fair) n = some a ∧ T.Denies n (a.request P) reason)
    (hfull : ∀ p, stop = .ended .stepBound p → Replay.strategy.isFull s = true) :
    s.strategy = ⟨T, fair, n⟩ ∧ T.Replayed fair P n s.trace s.divergence stop.ending? := by
  refine ⟨h.strategy, h.le, h.payloads, hdiverges, fun hbound => ?_⟩
  cases stop with
  | ended ending p =>
    cases hbound
    exact h.of_full (hfull p rfl)
  | panicked message => cases hbound

theorem replay_opening (T : Trace) (fair : Bool) (P : Program σ) :
    (P.opening Replay.strategy (.new T fair)).session.Follows T fair 0 ∧
      (P.opening Replay.strategy (.new T fair)).session.divergence = none := by
  have hframe := settle_framed Replay.strategy.isFull P (P.start P.fresh) (.new (.new T fair))
  refine ⟨⟨Nat.zero_le _, ?_, hframe.strategy⟩, hframe.divergence⟩
  exact (congrArg Trace.payloads hframe.trace).trans Trace.payloads_empty

/-- The strategy has the choice recorded for this step or none, and nothing else is asked for. -/
theorem replay_turn {n : Nat} {a : Pause σ Replay} (hopen : a.Open Replay.strategy.isFull P)
    (h : a.session.Follows T fair n) :
    ((a.turn Replay.strategy P).session.Follows T fair (n + 1) ∧
      (a.turn Replay.strategy P).session.divergence = a.session.divergence ∧
      ∃ v, (a.answer Replay.strategy P).result = .ok v) ∨
    ((a.turn Replay.strategy P).session.Follows T fair n ∧ ∃ reason,
      T.Denies n (a.request P) reason ∧
      (a.answer Replay.strategy P).result = .error (.diverged n reason) ∧
      (a.turn Replay.strategy P).session.divergence = some (n, reason)) := by
  have hanswer : a.answer Replay.strategy P =
      .blind a.session.scene (a.session.strategy.reply (a.place.request P)) := rfl
  rw [h.strategy] at hanswer
  rcases replay_answers (s := ⟨T, fair, n⟩) (nothingEnabled_of_open hopen) h.le with
    ⟨c, v, hc, hv, hreply⟩ | ⟨reason, hdenies, hreply⟩
  · left
    rw [hreply] at hanswer
    have hresult : (a.answer Replay.strategy P).result = .ok v := by rw [hanswer]; rfl
    refine ⟨⟨Trace.lt_length_of_get? hc, ?_, ?_⟩, turn_divergence fun _ _ herror => ?_, v, hresult⟩
    · rw [turn_trace hresult, Trace.payloads_push, h.payloads, Trace.take_payloads_succ hc,
        payloadOf_of_accept? hv]
    · rw [turn_strategy, hanswer]
      rfl
    · rw [hresult] at herror
      cases herror
  · right
    rw [hreply] at hanswer
    have hresult : (a.answer Replay.strategy P).result = .error (.diverged n reason) := by
      rw [hanswer]
      rfl
    refine ⟨⟨h.le, ?_, ?_⟩, reason, hdenies, hresult, ?_⟩
    · rw [Pause.turn, hresult, resume_error_trace]
      exact h.payloads
    · rw [turn_strategy, hanswer]
      rfl
    · rw [Pause.turn, hresult, resume_diverged]

theorem replay_pauseAt : ∀ (n : Nat) {a : Pause σ Replay},
    P.pauseAt Replay.strategy (.new T fair) n = some a →
      a.session.Follows T fair n ∧ a.session.divergence = none := by
  intro n
  induction n with
  | zero =>
    intro a ha
    have hopening := replay_opening T fair P
    rwa [Sum.getLeft?_eq_some_iff.1 ha] at hopening
  | succ n ih =>
    intro b hb
    obtain ⟨a, ha, hab⟩ := pauseAt_of_succ hb
    obtain ⟨hfollows, hnone⟩ := ih ha
    rcases replay_turn (pauseAt_open ha) hfollows with ⟨hnext, hsame, -⟩ |
      ⟨-, _, -, hresult, -⟩
    · rw [hab] at hnext hsame
      exact ⟨hnext, hsame.trans hnone⟩
    · rw [pauseAt_of_error ha hresult] at hb
      cases hb

/-- No request is answered after the trace. -/
theorem replay_ends :
    ∃ r, (P.opening Replay.strategy (.new T fair)).Concludes Replay.strategy P r := by
  refine concludes_opening_iff.2 ⟨T.length + 1, ?_⟩
  cases ha : P.pauseAt Replay.strategy (.new T fair) (T.length + 1) with
  | none => rfl
  | some a => exact absurd (replay_pauseAt _ ha).1.le (Nat.not_succ_le_self _)

/-- A replay ends before it makes a request, behind its last reply or where it diverges. -/
theorem replayed_of_concludes {stop : Stop σ} {s : Session Replay}
    (h : (P.opening Replay.strategy (.new T fair)).Concludes Replay.strategy P (stop, s)) :
    ∃ m, s.strategy = ⟨T, fair, m⟩ ∧ T.Replayed fair P m s.trace s.divergence stop.ending? := by
  have hclean : ∀ {m : Nat}, s.divergence = none → ∀ step reason,
      s.divergence = some (step, reason) → step = m ∧ ∃ a,
        P.pauseAt Replay.strategy (.new T fair) m = some a ∧ T.Denies m (a.request P) reason := by
    intro m hnone step reason hsome
    cases hnone.symm.trans hsome
  rcases exists_last_turn h 0 rfl with hend | ⟨n, a, ha, hend⟩
  · obtain ⟨hfollows, hnone⟩ := replay_opening T fair P
    rw [hend] at hfollows hnone
    refine ⟨0, hfollows.replayed (hclean hnone) ?_⟩
    rintro p rfl
    exact settle_stepBound _ P (P.start P.fresh) _ hend
  · obtain ⟨hbefore, hnone⟩ := replay_pauseAt n ha
    have hfull : (a.answer Replay.strategy P).result ≠ .error .exhausted →
        ∀ p, stop = .ended .stepBound p → Replay.strategy.isFull s = true := by
      rintro hresult p rfl
      exact (turn_stepBound hend).resolve_left hresult
    have hturn := replay_turn (pauseAt_open ha) hbefore
    rw [hend] at hturn
    rcases hturn with ⟨hfollows, hsame, v, hresult⟩ |
      ⟨hfollows, reason, hdenies, hresult, hdiverged⟩
    · exact ⟨n + 1, hfollows.replayed (hclean (hsame.trans hnone))
        (hfull (by rw [hresult]; nofun))⟩
    · refine ⟨n, hfollows.replayed (fun step reason hsome => ?_) (hfull (by rw [hresult]; nofun))⟩
      cases hdiverged.symm.trans hsome
      exact ⟨rfl, a, ha, hdenies⟩

end Following

/-- A replay decides by its trace alone: whichever program it is run on, it comes to an end, and
what it has recorded then are the first choices of the trace up to the names of fair ones. It
diverges only where the trace denies the next request, and comes to its bound only when it has read
a trace that is not empty to its end. So of two replays of a trace one has made the first choices of
the other. -/
theorem replay_follows_trace {σ : Type} (T : Trace) (fair : Bool) (P : Program σ) :
    (∃ fuel result, P.run fuel Replay.strategy (.new T fair) = some result) ∧
    (∀ fuel stop s, Session.drive fuel Replay.strategy P (.new T fair) = some (stop, s) →
      ∃ m, T.Replayed fair P m s.trace s.divergence stop.ending?) ∧
    (∀ fuel o left, P.run fuel Replay.strategy (.new T fair) = some (.ok o, left) →
      ∃ m, T.Replayed fair P m o.trace o.divergence (some o.ending) ∧ o.steps = m ∧
        left = ⟨T, fair, m⟩) ∧
    ∀ (σ' : Type) (P' : Program σ') (fair' : Bool) fuel fuel' stop stop' s s',
      Session.drive fuel Replay.strategy P (.new T fair) = some (stop, s) →
      Session.drive fuel' Replay.strategy P' (.new T fair') = some (stop', s') →
        s.trace.payloads <+: s'.trace.payloads ∨ s'.trace.payloads <+: s.trace.payloads := by
  have hdriven : ∀ {σ : Type} {P : Program σ} {fair : Bool} {fuel : Nat} {stop : Stop σ}
      {s : Session Replay}, Session.drive fuel Replay.strategy P (.new T fair) = some (stop, s) →
        ∃ m, s.strategy = ⟨T, fair, m⟩ ∧ T.Replayed fair P m s.trace s.divergence stop.ending? :=
    fun hdrive => replayed_of_concludes (drive_eq_some_iff.1 ⟨_, hdrive⟩)
  refine ⟨exists_run_iff.2 replay_ends, fun fuel stop s hdrive => ?_, fun fuel o left hrun => ?_,
    fun σ' P' fair' fuel fuel' stop stop' s s' hdrive hdrive' => ?_⟩
  · obtain ⟨m, -, hreplayed⟩ := hdriven hdrive
    exact ⟨m, hreplayed⟩
  · obtain ⟨⟨stop, s⟩, hdrive, hresult⟩ := Option.map_eq_some_iff.1 hrun
    obtain ⟨m, hstrategy, hreplayed⟩ := hdriven hdrive
    cases stop with
    | panicked message => cases hresult
    | ended ending p =>
      cases hresult
      refine ⟨m, ?_, ?_, hstrategy⟩
      · rw [outcome_trace, outcome_divergence]
        exact hreplayed
      · rw [outcome_steps, hstrategy]
        rfl
  · obtain ⟨m, -, hreplayed⟩ := hdriven hdrive
    obtain ⟨m', -, hreplayed'⟩ := hdriven hdrive'
    rw [hreplayed.payloads, hreplayed'.payloads]
    exact List.prefix_or_prefix_of_prefix (List.take_prefix m T.payloads)
      (List.take_prefix m' T.payloads)

/-- A trace that has not been recorded on `raisedFlag`. -/
def strangeTrace : Trace := .ofList [.boolean true, .integer 3, .unit ⟨1⟩]

theorem replay_follows_trace_raisedFlag :
    ∃ o left, raisedFlag.run 1 Replay.strategy (.new strangeTrace true) = some (.ok o, left) ∧
      o.divergence = some (1, .notScheduling) ∧
      strangeTrace.Replayed true raisedFlag 1 o.trace o.divergence (some o.ending) := by
  obtain ⟨o, left, hrun, hdivergence, hsteps⟩ : ∃ o left,
      raisedFlag.run 1 Replay.strategy (.new strangeTrace true) = some (.ok o, left) ∧
      o.divergence = some (1, .notScheduling) ∧ o.steps = 1 := ⟨_, _, rfl, rfl, rfl⟩
  obtain ⟨m, hreplayed, hm, -⟩ :=
    (replay_follows_trace strangeTrace true raisedFlag).2.2.1 1 o left hrun
  rw [← hm, hsteps] at hreplayed
  exact ⟨o, left, hrun, hdivergence, hreplayed⟩

end Interleave
