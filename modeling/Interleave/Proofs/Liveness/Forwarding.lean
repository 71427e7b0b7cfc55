import Interleave.Proofs.Liveness.Registers

/-!
# Interleave.Proofs.Liveness.Forwarding

What the strategy below the liveness check gets to see. It keeps a log of its demands, so that a
request passed on twice, or not at all, would show.

* `Watched.Confirms`, `Watched.Repeats`, `Watched.Forwards`: the three ways to deal with a request.
* `deals_once`: each request is dealt with in exactly one of them.
* `repeats_iff`: the cycle is repeated just where its next choice answers the request.
* `Watched.Relays`, `relays_after`: the strategy below sees the requests that it answers, in order,
  and every end of a run.
-/

namespace Interleave

variable {τ : Type} {S : Strategy τ} {w : Watched (τ × List Demand)} {a : Ask} {configured : Nat}

namespace Watched

/-- The registers after the check that precedes a request. -/
def checked (S : Strategy τ) (w : Watched (τ × List Demand)) (a : Ask) : Registers :=
  (w.finding S.logged a.scene).2.1.registers

/-- The request as it is passed on: the observer is that of the check, nothing else has changed. -/
def passed (S : Strategy τ) (w : Watched (τ × List Demand)) (a : Ask) : Ask :=
  { a with scene := { a.scene with observer := (w.finding S.logged a.scene).2.2 } }

def dealt (S : Strategy τ) (w : Watched (τ × List Demand)) (a : Ask) :
    Answer (Watched (τ × List Demand)) a.request.Reply :=
  (Watched.strategy S.logged).answer a.request a.scene w

/-- A violation is reported; the strategy below has not been asked, and the cycle is dropped. -/
structure Confirms (S : Strategy τ) (w : Watched (τ × List Demand)) (a : Ask) : Prop where
  result : ∃ violation, (w.dealt S a).result = .error (.liveness violation)
  base : (w.dealt S a).state.base = w.base
  cleared : (w.dealt S a).state.detector.registers.Cleared

/-- The next choice of the cycle is the answer; the strategy below has not been asked. -/
structure Repeats (S : Strategy τ) (w : Watched (τ × List Demand)) (a : Ask) : Prop where
  result : ∃ step v, (w.checked S a).cycle[(w.checked S a).cursor]? = some step ∧
    step.choice.Serves a.request v ∧ (w.dealt S a).result = .ok v
  registers : (w.dealt S a).state.detector.registers =
    { w.checked S a with
      cursor := ((w.checked S a).cursor + 1) % (w.checked S a).cycle.length
      replayed := (w.checked S a).replayed + 1 }
  base : (w.dealt S a).state.base = w.base

/-- The strategy below is asked once, its answer is the answer, and no cycle is left. -/
structure Forwards (S : Strategy τ) (w : Watched (τ × List Demand)) (a : Ask) : Prop where
  answer : w.dealt S a =
    let below := S.answer a.request (w.passed S a).scene w.base.1
    ⟨below.result, ⟨(w.dealt S a).state.detector, below.state, w.base.2 ++ [.ask (w.passed S a)]⟩,
      below.observer⟩
  cleared : (w.dealt S a).state.detector.registers.Cleared

end Watched

theorem Watched.Forwards.base (h : w.Forwards S a) : (w.dealt S a).state.base =
    ((S.answer a.request (w.passed S a).scene w.base.1).state,
      w.base.2 ++ [.ask (w.passed S a)]) := by
  rw [h.answer]

/-- The log has grown, so that the strategy below has been asked. -/
theorem Watched.Forwards.asks (h : w.Forwards S a) : (w.dealt S a).state.base ≠ w.base := by
  intro heq
  have hlog := congrArg (fun base => base.2.length) (h.base.symm.trans heq)
  simp at hlog

theorem checked_of_finding {found : Option Violation} {d : Detector} {observer : Observer}
    (h : w.finding S.logged a.scene = (found, d, observer)) :
    w.checked S a = d.registers ∧ w.passed S a = ⟨a.request, { a.scene with observer }⟩ := by
  unfold Watched.checked Watched.passed
  rw [h]
  exact ⟨rfl, rfl⟩

/-- What comes of a request, by what the check has found before it. -/
theorem dealt_cases (h : w.detector.Sound configured) :
    (w.Confirms S a ∧ (w.checked S a).replaying = false) ∨
    (w.Repeats S a ∧ (w.checked S a).replaying = true) ∨
    (w.Forwards S a ∧ ((w.checked S a).replaying = true → ∀ step v,
      (w.checked S a).cycle[(w.checked S a).cursor]? = some step →
        ¬ step.choice.Serves a.request v)) := by
  have hsound : (w.finding S.logged a.scene).2.1.Sound configured := h.observe _ _
  have hanswer := watched_answer S.logged a.request a.scene w
  obtain ⟨x, hx⟩ : ∃ x, w.dealt S a = x := ⟨_, rfl⟩
  rw [show (Watched.strategy S.logged).answer a.request a.scene w = x from hx] at hanswer
  cases hanswer with
  | confirmed hfinding =>
    have hcleared := cleared_registers (warms_of_found hfinding).1
    rw [(checked_of_finding hfinding).1]
    exact .inl ⟨⟨⟨_, by rw [hx]⟩, by rw [hx], by rw [hx]; exact hcleared⟩, hcleared.replaying⟩
  | @followed d observer c step v hfinding hc hstep haccept =>
    rw [hfinding] at hsound
    have hpos := Nat.zero_lt_of_lt (hsound.chase c hc).cursor_lt
    have hchecked := (checked_of_finding hfinding).1
    obtain ⟨hreplaying, hcursor⟩ := registers_at_cursor_iff.2 ⟨c, hc, hstep⟩
    rw [← hchecked] at hreplaying hcursor
    refine .inr (.inl ⟨⟨⟨step, v, hcursor, accept?_eq_some_iff.1 haccept, by rw [hx]⟩, ?_,
      by rw [hx]⟩, hreplaying⟩)
    rw [hchecked, hx]
    simp only [Detector.registers, hc, Chase.step, Nat.max_eq_left hpos, Registers.blank]
  | @forwarded d observer hfinding hmisfits =>
    obtain ⟨hchecked, hpassed⟩ := checked_of_finding hfinding
    refine .inr (.inr ⟨⟨?_, by rw [hx]; exact cleared_registers rfl⟩, ?_⟩)
    · rw [hx, hpassed]
      rfl
    · rw [hchecked]
      intro hreplaying step v hcursor hserves
      obtain ⟨c, hc, hstep⟩ := registers_at_cursor_iff.1 ⟨hreplaying, hcursor⟩
      have haccept := hmisfits c step hc hstep
      rw [accept?_eq_some_iff.2 hserves] at haccept
      cases haccept

theorem Watched.Confirms.not_repeats (h : w.Confirms S a) : ¬ w.Repeats S a := by
  intro hrepeats
  obtain ⟨violation, hviolation⟩ := h.result
  obtain ⟨step, v, -, -, hv⟩ := hrepeats.result
  rw [hviolation] at hv
  cases hv

theorem deals_once (h : w.detector.Sound configured) :
    (w.Confirms S a ∧ ¬ w.Repeats S a ∧ ¬ w.Forwards S a) ∨
    (w.Repeats S a ∧ ¬ w.Confirms S a ∧ ¬ w.Forwards S a) ∨
    (w.Forwards S a ∧ ¬ w.Confirms S a ∧ ¬ w.Repeats S a) := by
  rcases dealt_cases (S := S) (a := a) h with ⟨hconfirms, -⟩ | ⟨hrepeats, -⟩ | ⟨hforwards, -⟩
  · exact .inl ⟨hconfirms, hconfirms.not_repeats,
      fun hforwards => hforwards.asks hconfirms.base⟩
  · exact .inr (.inl ⟨hrepeats, fun hconfirms => hconfirms.not_repeats hrepeats,
      fun hforwards => hforwards.asks hrepeats.base⟩)
  · exact .inr (.inr ⟨hforwards, fun hconfirms => hforwards.asks hconfirms.base,
      fun hrepeats => hforwards.asks hrepeats.base⟩)

theorem repeats_iff (h : w.detector.Sound configured) :
    w.Repeats S a ↔ (w.checked S a).replaying = true ∧ ∃ step v,
      (w.checked S a).cycle[(w.checked S a).cursor]? = some step ∧
        step.choice.Serves a.request v := by
  rcases dealt_cases (S := S) (a := a) h with
    ⟨hconfirms, hidle⟩ | ⟨hrepeats, hreplaying⟩ | ⟨hforwards, hmisfits⟩
  · refine iff_of_false hconfirms.not_repeats fun ⟨hreplaying, _⟩ => ?_
    rw [hidle] at hreplaying
    cases hreplaying
  · obtain ⟨step, v, hstep, hserves, -⟩ := hrepeats.result
    exact iff_of_true hrepeats ⟨hreplaying, step, v, hstep, hserves⟩
  · exact iff_of_false (fun hrepeats => hforwards.asks hrepeats.base)
      fun ⟨hreplaying, step, v, hstep, hserves⟩ => hmisfits hreplaying step v hstep hserves

/-- Demands on the check, and what the strategy below sees of them. -/
inductive Watched.Relays (S : Strategy τ) :
    Watched (τ × List Demand) → List Demand → List Demand → Prop where
  | nil {w : Watched (τ × List Demand)} : Relays S w [] []
  | confirmed {w : Watched (τ × List Demand)} {a : Ask} {demands seen : List Demand} :
      w.Confirms S a → Relays S ((Watched.strategy S.logged).meet w (.ask a)) demands seen →
      Relays S w (.ask a :: demands) seen
  | repeated {w : Watched (τ × List Demand)} {a : Ask} {demands seen : List Demand} :
      w.Repeats S a → Relays S ((Watched.strategy S.logged).meet w (.ask a)) demands seen →
      Relays S w (.ask a :: demands) seen
  | forwarded {w : Watched (τ × List Demand)} {a : Ask} {demands seen : List Demand} :
      w.Forwards S a → Relays S ((Watched.strategy S.logged).meet w (.ask a)) demands seen →
      Relays S w (.ask a :: demands) (.ask (w.passed S a) :: seen)
  | prepare {w : Watched (τ × List Demand)} {demands seen : List Demand} :
      Relays S ((Watched.strategy S.logged).meet w .prepare) demands seen →
      Relays S w (.prepare :: demands) (.prepare :: seen)
  | reset {w : Watched (τ × List Demand)} {demands seen : List Demand} :
      Relays S ((Watched.strategy S.logged).meet w .reset) demands seen →
      Relays S w (.reset :: demands) (.reset :: seen)

/-- By induction on the demands: what is seen of the first one stands before the rest. -/
theorem relays_after (demands : List Demand) : ∀ {w : Watched (τ × List Demand)},
    w.detector.Sound configured → ∃ seen, w.Relays S demands seen ∧
      ((Watched.strategy S.logged).after w demands).base =
        (S.after w.base.1 seen, w.base.2 ++ seen) := by
  induction demands with
  | nil => exact fun _ => ⟨[], .nil, by simp⟩
  | cons d demands ih =>
    intro w h
    obtain ⟨seen, hrelays, hbase⟩ := ih (watched_meet (S := S.logged) h d).1
    rw [Strategy.after_cons, hbase]
    cases d with
    | prepare =>
      refine ⟨.prepare :: seen, .prepare hrelays, ?_⟩
      exact congrArg (Prod.mk _) (List.append_assoc w.base.2 [.prepare] seen)
    | reset =>
      refine ⟨.reset :: seen, .reset hrelays, ?_⟩
      exact congrArg (Prod.mk _) (List.append_assoc w.base.2 [.reset] seen)
    | ask a =>
      have hmeet : ((Watched.strategy S.logged).meet w (.ask a)).base =
        (w.dealt S a).state.base := rfl
      rw [hmeet]
      rcases dealt_cases (S := S) (a := a) h with ⟨hconfirms, -⟩ | ⟨hrepeats, -⟩ | ⟨hforwards, -⟩
      · exact ⟨seen, .confirmed hconfirms hrelays, by rw [hconfirms.base]⟩
      · exact ⟨seen, .repeated hrepeats hrelays, by rw [hrepeats.base]⟩
      · refine ⟨_, .forwarded hforwards hrelays, ?_⟩
        rw [hforwards.base]
        exact congrArg (Prod.mk _) (List.append_assoc w.base.2 [.ask (w.passed S a)] seen)

/-- A watched strategy without the log of the one below. -/
def Watched.unlogged (w : Watched (τ × List Demand)) : Watched τ := ⟨w.detector, w.base.1⟩

theorem meet_unlogged (S : Strategy τ) (w : Watched (τ × List Demand)) (d : Demand) :
    (Watched.strategy S).meet w.unlogged d = ((Watched.strategy S.logged).meet w d).unlogged := by
  cases d with
  | ask a =>
    simp only [Strategy.meet, Watched.strategy, Watched.answer, Watched.unlogged, Strategy.logged]
    generalize w.detector.consult a.request (S.steps w.base.1) a.scene = x
    obtain ⟨verdict, d, observer⟩ := x
    cases verdict <;> rfl
  | prepare => rfl
  | reset => rfl

theorem after_unlogged (S : Strategy τ) (demands : List Demand) :
    ∀ w : Watched (τ × List Demand), (Watched.strategy S).after w.unlogged demands =
      ((Watched.strategy S.logged).after w demands).unlogged := by
  induction demands with
  | nil => exact fun _ => rfl
  | cons d demands ih =>
    intro w
    rw [Strategy.after_cons, Strategy.after_cons, meet_unlogged, ih]

/-- In every state that demands lead to, a request is dealt with in exactly one of three ways, and
the cycle is repeated just where its next choice answers the request. The strategy below has seen
the requests that it answered, once each and in order. -/
theorem below_sees_what_it_answers (S : Strategy τ) (seed : UInt64) (safetyPrefix threshold : Nat)
    (base : τ) (demands : List Demand) :
    let start : Watched (τ × List Demand) := ⟨.new seed safetyPrefix threshold, base, []⟩
    let w := (Watched.strategy S.logged).after start demands
    (∀ a, ((w.Confirms S a ∧ ¬ w.Repeats S a ∧ ¬ w.Forwards S a) ∨
        (w.Repeats S a ∧ ¬ w.Confirms S a ∧ ¬ w.Forwards S a) ∨
        (w.Forwards S a ∧ ¬ w.Confirms S a ∧ ¬ w.Repeats S a)) ∧
      (w.Repeats S a ↔ (w.checked S a).replaying = true ∧ ∃ step v,
        (w.checked S a).cycle[(w.checked S a).cursor]? = some step ∧
          step.choice.Serves a.request v)) ∧
    (∃ seen, start.Relays S demands seen ∧ w.base = (S.after base seen, seen)) ∧
    (Watched.strategy S).after start.unlogged demands = w.unlogged := by
  intro start w
  have hstart : start.detector.Sound threshold := ⟨rfl, nofun⟩
  have hsound : w.detector.Sound threshold := (watched_after demands hstart).1
  obtain ⟨seen, hrelays, hbase⟩ := relays_after (S := S) demands hstart
  exact ⟨fun a => ⟨deals_once hsound, repeats_iff hsound⟩, ⟨seen, hrelays, hbase⟩,
    after_unlogged S demands start⟩

/-- The third request of a loop is answered by the cycle, and the fifth one is refused. -/
example : ((Watched.strategy DepthFirst.strategy.logged).after ⟨.new 0 0 3, .new 0, []⟩
    [loopAsk 0, loopAsk 1, loopAsk 2, loopAsk 3, loopAsk 4]).base.2.length = 2 := by decide +kernel

end Interleave
