import Interleave.Proofs.Pause.Simulation
import Mathlib.Order.WellFounded

/-!
# Interleave.Proofs.Pause.Descent

Runs that must end. A handler makes finitely many requests, so a run ends when each unit that is
scheduled uses something up that no answer in between gives back.

* `exists_last_turn`: a run ends with what follows on its last request.
* `exists_run_iff`, `concludes_opening_iff`: a run that ends is one with finitely many pauses.
* `Pause.Descends`: something is used up so, at all pauses where an invariant holds.
* `concludes_of_descends`: then every run from such a pause ends.
-/

namespace Interleave

variable {σ τ α : Type} {S : Strategy τ} {P : Program σ}

theorem concludes_of_pauseAt {start : τ} {r : Stop σ × Session τ} : ∀ (n : Nat) {a : Pause σ τ},
    P.pauseAt S start n = some a → Juncture.Concludes S P (.inl a) r →
      (P.opening S start).Concludes S P r := by
  intro n
  induction n with
  | zero =>
    intro a ha hr
    rw [Sum.getLeft?_eq_some_iff.1 ha]
    exact hr
  | succ n ih =>
    intro b hb hr
    obtain ⟨a, ha, hab⟩ := pauseAt_of_succ hb
    exact ih ha (.turn (by rw [hab]; exact hr))

theorem concludes_of_pauseAt_eq_none {start : τ} (n : Nat) (h : P.pauseAt S start n = none) :
    ∃ r, (P.opening S start).Concludes S P r := by
  induction n with
  | zero =>
    obtain ⟨r, hr⟩ := Sum.isRight_iff.1 (Sum.getLeft?_eq_none_iff.1 h)
    exact ⟨r, by rw [hr]; exact .ended⟩
  | succ n ih =>
    cases ha : P.pauseAt S start n with
    | none => exact ih ha
    | some a =>
      rw [Program.pauseAt, ha, Option.bind_some] at h
      obtain ⟨r, hr⟩ := Sum.isRight_iff.1 (Sum.getLeft?_eq_none_iff.1 h)
      exact ⟨r, concludes_of_pauseAt n ha (.turn (by rw [hr]; exact .ended))⟩

/-- A run ends after its last request, if it makes one at all. -/
theorem exists_last_turn {start : τ} {x : Juncture σ τ} {r : Stop σ × Session τ}
    (h : x.Concludes S P r) : ∀ n, P.pauseAt S start n = x.getLeft? →
      x = .inr r ∨ ∃ m a, P.pauseAt S start m = some a ∧ a.turn S P = .inr r := by
  induction h with
  | ended => exact fun _ _ => .inl rfl
  | @turn a r _ ih =>
    intro n hn
    have hnext : P.pauseAt S start (n + 1) = (a.turn S P).getLeft? := by
      rw [Program.pauseAt, hn]
      rfl
    rcases ih (n + 1) hnext with hend | hlast
    · exact .inr ⟨n, a, hn, hend⟩
    · exact .inr hlast

theorem concludes_opening_iff {start : τ} :
    (∃ r, (P.opening S start).Concludes S P r) ↔ ∃ n, P.pauseAt S start n = none := by
  constructor
  · rintro ⟨r, h⟩
    rcases exists_last_turn h 0 rfl with hend | ⟨n, a, ha, hend⟩
    · exact ⟨0, by rw [Program.pauseAt, hend]; rfl⟩
    · exact ⟨n + 1, by rw [Program.pauseAt, ha, Option.bind_some, hend]; rfl⟩
  · rintro ⟨n, h⟩
    exact concludes_of_pauseAt_eq_none n h

theorem exists_run_iff {start : τ} : (∃ fuel result, P.run fuel S start = some result) ↔
    ∃ r, (P.opening S start).Concludes S P r := by
  simp only [← drive_eq_some_iff, Program.run]
  constructor
  · rintro ⟨fuel, result, h⟩
    obtain ⟨r, hr, _⟩ := Option.map_eq_some_iff.1 h
    exact ⟨r, fuel, hr⟩
  · rintro ⟨r, fuel, hr⟩
    exact ⟨fuel, _, by rw [hr]; rfl⟩

theorem run_mono {start : τ} {m n : Nat} {result : Except String Outcome × τ} (hmn : m ≤ n)
    (h : P.run m S start = some result) : P.run n S start = some result := by
  obtain ⟨r, hr, rfl⟩ := Option.map_eq_some_iff.1 h
  rw [Program.run, drive_mono hmn hr]
  rfl

/-- What is left, told by the state of the strategy and the length of the trace, does not grow when
a request is answered, and becomes less when a unit is scheduled. -/
structure Pause.Descends [Preorder α] (S : Strategy τ) (P : Program σ) (I : Pause σ τ → Prop)
    (left : τ → Nat → α) : Prop where
  keeps : ∀ {a b}, I a → a.turn S P = .inl b → I b
  le : ∀ {a v}, I a → (a.answer S P).result = .ok v →
    left (a.answer S P).state (a.session.trace.length + 1) ≤
      left a.session.strategy a.session.trace.length
  lt : ∀ {a p v}, I a → a.place = .scheduling p → (a.answer S P).result = .ok v →
    left (a.answer S P).state (a.session.trace.length + 1) <
      left a.session.strategy a.session.trace.length

theorem settle_ask_of_running {full : Session τ → Bool} {q : Question}
    {next : Option q.request.Reply → Handler σ} {s : Session τ} (h : s.halted = false) :
    P.settle full (.ask q next) s = .inl ⟨.question q next, s⟩ := by
  simp [Program.settle, h]

theorem offer_of_running {full : Session τ → Bool} {p : σ} {s : Session τ}
    (h : s.halted = false) (he : (enabledIds (P.units p)).isEmpty = false) :
    P.offer full p s = P.schedule full p s := by
  simp [Program.offer, h, he]

theorem turn_of_error {a : Pause σ τ} {refusal : Refusal}
    (h : (a.answer S P).result = .error refusal) : ∃ r, a.turn S P = .inr r := by
  rw [Pause.turn, h]
  exact resume_error _ _ _ _

/-- From a pause on it is enough to look behind each reply. -/
theorem concludes_of_reply {a : Pause σ τ} (h : ∀ v, (a.answer S P).result = .ok v →
    ∃ r, (P.settle S.isFull (a.place.reaction P v)
      ((a.answered S P).record P a.place v)).Concludes S P r) :
    ∃ r, Juncture.Concludes S P (.inl a) r := by
  cases hresult : (a.answer S P).result with
  | error refusal =>
    obtain ⟨r, hr⟩ := turn_of_error hresult
    exact ⟨r, .turn (by rw [hr]; exact .ended)⟩
  | ok v =>
    obtain ⟨r, hr⟩ := h v hresult
    refine ⟨r, .turn ?_⟩
    rw [Pause.turn, hresult, resume_ok]
    exact hr

variable [Preorder α] [WellFoundedLT α] {I : Pause σ τ → Prop} {left : τ → Nat → α}

/-- The induction is on what is left, and down the handler as long as only its questions are
answered. -/
theorem settle_concludes (hI : Pause.Descends S P I left) : ∀ (bound : α) (h : Handler σ)
    (s : Session τ), left s.strategy s.trace.length ≤ bound →
      (∀ a, P.settle S.isFull h s = .inl a → I a) →
        ∃ r, (P.settle S.isFull h s).Concludes S P r := by
  intro bound
  induction bound using WellFoundedLT.induction with
  | ind bound ihbound =>
    intro h
    induction h with
    | finish p =>
      intro s hs hopen
      cases hsettle : P.settle S.isFull (.finish p) s with
      | inr r => exact ⟨r, .ended⟩
      | inl a =>
        have ha := hopen a hsettle
        obtain ⟨hplace, hsession⟩ : a.place = .scheduling p ∧
            a.session = { s with offered := P.units p } := by
          simp only [Program.settle, Program.offer, Program.schedule] at hsettle
          repeat' split at hsettle
          all_goals cases hsettle
          exact ⟨rfl, rfl⟩
        refine concludes_of_reply fun v hv => ?_
        have hlt := hI.lt ha hplace hv
        rw [hsession] at hlt
        refine ihbound _ (lt_of_lt_of_le hlt hs) _ _ (le_of_eq ?_) fun b hb => hI.keeps ha ?_
        · rw [Session.record_strategy, Session.record_trace, Trace.length_push]
          simp only [Pause.answered, hsession]
        · rw [Pause.turn, hv, resume_ok]
          exact hb
    | abort p => exact fun s _ _ => ⟨_, .ended⟩
    | panic message => exact fun s _ _ => ⟨_, .ended⟩
    | ask q next ih =>
      intro s hs hopen
      cases hh : s.halted with
      | true =>
        simp only [Program.settle, hh, if_true] at hopen ⊢
        exact ih none s hs hopen
      | false =>
        have ha := hopen _ (settle_ask_of_running hh)
        rw [settle_ask_of_running hh]
        refine concludes_of_reply fun v hv => ih (some v) _ ?_ fun b hb => hI.keeps ha ?_
        · rw [Session.record_strategy, Session.record_trace, Trace.length_push]
          exact le_trans (hI.le ha hv) hs
        · rw [Pause.turn, hv, resume_ok]
          exact hb
    | check holds message next ih =>
      intro s hs hopen
      have hframe := Session.Framed.check holds message s
      exact ih _ _ (by rw [hframe.strategy, hframe.trace]; exact hs) hopen
    | tell n next ih =>
      intro s hs hopen
      have hframe := Session.Framed.tell n s
      exact ih _ (by rw [hframe.strategy, hframe.trace]; exact hs) hopen

theorem concludes_of_descends (hI : Pause.Descends S P I left) {x : Juncture σ τ}
    (hx : ∀ a, x = .inl a → I a) : ∃ r, x.Concludes S P r := by
  cases x with
  | inr r => exact ⟨r, .ended⟩
  | inl a =>
    have ha := hx a rfl
    refine concludes_of_reply fun v hv =>
      settle_concludes hI _ _ _ le_rfl fun b hb => hI.keeps ha ?_
    rw [Pause.turn, hv, resume_ok]
    exact hb

end Interleave
