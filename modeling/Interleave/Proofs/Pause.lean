import Interleave.Session

/-!
# Interleave.Proofs.Pause

A run as a chain of requests. A `Pause` is a point of a run at which a request is put to the
strategy: the place where the program waits and the session there. `Pause.turn` answers the request
and carries the program on to its next pause or to its end.

* `Program.pauseAt S P start n`: the pause with `n` requests before it.
* `Juncture.Concludes`: a run ends so when its requests are answered one after the other.
* `drive_eq_some_iff`: runs by turns are the runs that `Session.drive` makes.
-/

namespace Interleave

/-- Where a program waits for an answer: between two units, or at a question of a handler. -/
inductive Place (σ : Type)
  | scheduling (state : σ)
  | question (q : Question) (next : Option q.request.Reply → Handler σ)

namespace Place

variable {σ : Type}

@[reducible] def request (P : Program σ) : Place σ → Request
  | scheduling p => .unit (P.units p) (P.current p)
  | question q _ => q.request

/-- The choice that is recorded for a reply. -/
def choice (P : Program σ) : (x : Place σ) → (x.request P).Reply → Choice
  | scheduling _, u => .unit u
  | question q _, v => q.choice v

/-- What the program does with a reply. -/
def reaction (P : Program σ) : (x : Place σ) → (x.request P).Reply → Handler σ
  | scheduling p, u => P.execute u p
  | question _ next, v => next (some v)

end Place

/-- Record a reply; the narrative tells which unit is scheduled. -/
def Session.record {σ τ : Type} (P : Program σ) : (x : Place σ) → (x.request P).Reply →
    Session τ → Session τ
  | .scheduling p, u, s =>
    { s with trace := s.trace.push (.unit u) }.say
      ("<ScheduleLog> Schedule '" ++ P.label p u ++ "'")
  | .question q _, v, s => { s with trace := s.trace.push (q.choice v) }

structure Pause (σ τ : Type) where
  place : Place σ
  session : Session τ

/-- A run at its next request, or at its end. -/
abbrev Juncture (σ τ : Type) := Pause σ τ ⊕ (Stop σ × Session τ)

section Runs

variable {σ τ : Type}

/-- Whether the strategy of a session has got as far as it may. -/
def Strategy.isFull (S : Strategy τ) (s : Session τ) : Bool := S.atBound s.strategy

namespace Program

/-- Ask for a unit, unless `full` says that no further one may be scheduled. -/
def schedule (full : Session τ → Bool) (P : Program σ) (p : σ) (s : Session τ) : Juncture σ τ :=
  if full s then .inr (.ended .stepBound p, s)
  else .inl ⟨.scheduling p, { s with offered := P.units p }⟩

/-- Go on between two units. -/
def offer (full : Session τ → Bool) (P : Program σ) (p : σ) (s : Session τ) : Juncture σ τ :=
  if s.halted then .inr (.ended .halted p, s)
  else if (enabledIds (P.units p)).isEmpty then .inr (.ended .quiescent p, s)
  else P.schedule full p s

/-- Carry out a handler as far as the next request. -/
def settle (full : Session τ → Bool) (P : Program σ) : Handler σ → Session τ → Juncture σ τ
  | .finish p, s => P.offer full p s
  | .abort p, s => .inr (.ended .halted p, s)
  | .panic message, s => .inr (.panicked message, s)
  | .ask q next, s =>
    if s.halted then P.settle full (next none) s else .inl ⟨.question q next, s⟩
  | .check holds message next, s =>
    P.settle full (next (s.check holds message).1) (s.check holds message).2
  | .tell n next, s => P.settle full next (s.tell n)

/-- Go on from a place with what the strategy has answered there. -/
def resume (full : Session τ → Bool) (P : Program σ) :
    (x : Place σ) → Except Refusal (x.request P).Reply → Session τ → Juncture σ τ
  | .scheduling p, .error .noEnabledChoice, s => .inr (.ended .quiescent p, s)
  | .scheduling p, .error .exhausted, s => .inr (.ended .stepBound p, s)
  | .scheduling p, .error refusal, s => .inr (.ended .halted p, s.fail refusal)
  | .question _ next, .error refusal, s => P.settle full (next none) (s.fail refusal)
  | x, .ok v, s => P.settle full (x.reaction P v) (s.record P x v)

/-- A run that has just begun. -/
def opening (S : Strategy τ) (P : Program σ) (start : τ) : Juncture σ τ :=
  P.settle S.isFull (P.start P.fresh) (.new start)

end Program

namespace Pause

def request (P : Program σ) (a : Pause σ τ) : Request := a.place.request P

/-- What the strategy makes of the request. -/
def answer (S : Strategy τ) (P : Program σ) (a : Pause σ τ) :
    Answer τ (a.place.request P).Reply :=
  S.answer (a.place.request P) a.session.scene a.session.strategy

/-- The session once the strategy has answered. -/
def answered (S : Strategy τ) (P : Program σ) (a : Pause σ τ) : Session τ :=
  { a.session with strategy := (a.answer S P).state, observer := (a.answer S P).observer }

/-- Answer the request and carry the program on. -/
def turn (S : Strategy τ) (P : Program σ) (a : Pause σ τ) : Juncture σ τ :=
  P.resume S.isFull a.place (a.answer S P).result (a.answered S P)

end Pause

/-- The pause of a run with `n` requests before it. -/
def Program.pauseAt (S : Strategy τ) (P : Program σ) (start : τ) : Nat → Option (Pause σ τ)
  | 0 => (P.opening S start).getLeft?
  | n + 1 => (P.pauseAt S start n).bind fun a => (a.turn S P).getLeft?

/-- Answering the requests one after the other leads to this end. -/
inductive Juncture.Concludes (S : Strategy τ) (P : Program σ) :
    Juncture σ τ → Stop σ × Session τ → Prop where
  | ended {r : Stop σ × Session τ} : Concludes S P (.inr r) r
  | turn {a : Pause σ τ} {r : Stop σ × Session τ} :
      Concludes S P (a.turn S P) r → Concludes S P (.inl a) r

/-- What a handler leaves behind: a run that goes on as `Q` says, or this end. -/
def Session.Leaves (Q : σ × Session τ → Prop) (r : Stop σ × Session τ) :
    (σ × Session τ) ⊕ (Stop σ × Session τ) → Prop
  | .inl at_ => Q at_
  | .inr stop => stop = r

/-- Scheduling one unit after the other leads to this end. -/
abbrev Session.Rounds (S : Strategy τ) (P : Program σ) (r : Stop σ × Session τ)
    (at_ : σ × Session τ) : Prop :=
  Ends (fun at_ => some (Session.round S P at_)) at_ r

variable {S : Strategy τ} {P : Program σ}

theorem ask_of_halted {q : Question} {s : Session τ} (h : s.halted = true) :
    s.ask S q = (none, s) := by
  simp [Session.ask, h]

theorem turn_question {q : Question} {next : Option q.request.Reply → Handler σ} {s : Session τ}
    (h : s.halted = false) :
    (Pause.mk (.question q next) s).turn S P =
      P.settle S.isFull (next (s.ask S q).1) (s.ask S q).2 := by
  simp only [Pause.turn, Pause.answer, Pause.answered, Session.ask, Session.request, h]
  cases (S.answer q.request s.scene s.strategy).result <;> rfl

theorem round_of_halted {p : σ} {s : Session τ} (h : s.halted = true) :
    Session.round S P (p, s) = .inr (.ended .halted p, s) := by
  simp [Session.round, h]

theorem round_of_quiescent {p : σ} {s : Session τ} (h : s.halted = false)
    (he : (enabledIds (P.units p)).isEmpty = true) :
    Session.round S P (p, s) = .inr (.ended .quiescent p, s) := by
  simp [Session.round, h, he]

theorem round_of_full {p : σ} {s : Session τ} (h : s.halted = false)
    (he : (enabledIds (P.units p)).isEmpty = false) (hf : S.isFull s = true) :
    Session.round S P (p, s) = .inr (.ended .stepBound p, s) := by
  unfold Strategy.isFull at hf
  simp [Session.round, h, he, hf]

/-- Where a unit is asked for, a round makes a turn and finishes the handler of the unit. -/
theorem round_of_open {p : σ} {s : Session τ} (h : s.halted = false)
    (he : (enabledIds (P.units p)).isEmpty = false) (hf : S.isFull s = false) :
    (∃ stop, Session.round S P (p, s) = .inr stop ∧
      (Pause.mk (.scheduling p) { s with offered := P.units p }).turn S P = .inr stop) ∨
    (∃ u s', Session.round S P (p, s) = Session.afterHandler ((P.execute u p).run S s') ∧
      (Pause.mk (.scheduling p) { s with offered := P.units p }).turn S P =
        P.settle S.isFull (P.execute u p) s') := by
  obtain ⟨result, s', hreq⟩ : ∃ result s', Session.request S (.unit (P.units p) (P.current p))
      { s with offered := P.units p } = (result, s') := ⟨_, _, rfl⟩
  have hturn : (Pause.mk (.scheduling p) { s with offered := P.units p }).turn S P =
      P.resume S.isFull (.scheduling p)
        (Session.request S (.unit (P.units p) (P.current p)) { s with offered := P.units p }).1
        (Session.request S (.unit (P.units p) (P.current p)) { s with offered := P.units p }).2 :=
    rfl
  have h' : ¬ s.halted = true := by simp [h]
  have he' : ¬ (enabledIds (P.units p)).isEmpty = true := by simp [he]
  have hf' : ¬ S.atBound s.strategy = true := by simpa [Strategy.isFull] using hf
  rw [hturn, hreq]
  simp only [Session.round, if_neg h', if_neg he', if_neg hf', hreq]
  cases result with
  | error refusal => cases refusal <;> exact .inl ⟨_, rfl, rfl⟩
  | ok u => exact .inr ⟨u, _, rfl, rfl⟩

theorem rounds_of_leaves {p : σ} {s : Session τ} {r : Stop σ × Session τ}
    (h : Session.Leaves (Session.Rounds S P r) r (Session.round S P (p, s))) :
    Session.Rounds S P r (p, s) := by
  cases hr : Session.round S P (p, s) with
  | inl at_ => rw [hr] at h; exact .next (by rw [hr]) h
  | inr stop => rw [hr] at h; cases h; exact .last (by rw [hr])

/-- Between two units a run stops at once, by turns as by rounds, or else both ask for a unit. -/
theorem round_of_offer (p : σ) (s : Session τ) :
    (∃ stop, P.offer S.isFull p s = .inr stop ∧ Session.round S P (p, s) = .inr stop) ∨
    P.offer S.isFull p s = .inl ⟨.scheduling p, { s with offered := P.units p }⟩ ∧
      ((∃ stop, Session.round S P (p, s) = .inr stop ∧
        (Pause.mk (.scheduling p) { s with offered := P.units p }).turn S P = .inr stop) ∨
      (∃ u s', Session.round S P (p, s) = Session.afterHandler ((P.execute u p).run S s') ∧
        (Pause.mk (.scheduling p) { s with offered := P.units p }).turn S P =
          P.settle S.isFull (P.execute u p) s')) := by
  rcases Bool.eq_false_or_eq_true s.halted with hh | hh
  · exact .inl ⟨_, by simp [Program.offer, hh], round_of_halted hh⟩
  rcases Bool.eq_false_or_eq_true (enabledIds (P.units p)).isEmpty with he | he
  · exact .inl ⟨_, by simp [Program.offer, hh, he], round_of_quiescent hh he⟩
  rcases Bool.eq_false_or_eq_true (S.isFull s) with hf | hf
  · exact .inl ⟨_, by simp [Program.offer, Program.schedule, hh, he, hf], round_of_full hh he hf⟩
  · exact .inr ⟨by simp [Program.offer, Program.schedule, hh, he, hf], round_of_open hh he hf⟩

/-- A handler stops the run, comes to the next unit, or puts a question first. -/
theorem run_of_settle (h : Handler σ) : ∀ s : Session τ,
    (∃ stop, P.settle S.isFull h s = .inr stop ∧
      Session.afterHandler (h.run S s) = .inr stop) ∨
    (∃ p s', P.settle S.isFull h s = P.offer S.isFull p s' ∧
      Session.afterHandler (h.run S s) = .inl (p, s')) ∨
    ∃ q next s', s'.halted = false ∧ P.settle S.isFull h s = .inl ⟨.question q next, s'⟩ ∧
      h.run S s = (next (s'.ask S q).1).run S (s'.ask S q).2 := by
  induction h with
  | finish p => exact fun s => .inr (.inl ⟨p, s, rfl, rfl⟩)
  | abort p => exact fun s => .inl ⟨_, rfl, rfl⟩
  | panic message => exact fun s => .inl ⟨_, rfl, rfl⟩
  | ask q next ih =>
    intro s
    cases hh : s.halted with
    | true =>
      rw [Handler.run, ask_of_halted hh, Program.settle, if_pos hh]
      exact ih none s
    | false => exact .inr (.inr ⟨q, next, s, hh, if_neg (by simp [hh]), rfl⟩)
  | check holds message next ih => exact fun s => ih _ _
  | tell n next ih => exact fun s => ih _

/-- The end of a run by turns is the end of the run by handlers and rounds. -/
theorem leaves_of_concludes {x : Juncture σ τ} {r : Stop σ × Session τ}
    (hx : x.Concludes S P r) :
    ∀ (h : Handler σ) (s : Session τ), x = P.settle S.isFull h s →
      Session.Leaves (Session.Rounds S P r) r (Session.afterHandler (h.run S s)) := by
  induction hx with
  | ended =>
    intro h s hs
    rcases run_of_settle (P := P) (S := S) h s with
      ⟨stop, hsettle, hrun⟩ | ⟨p, s', hsettle, hrun⟩ | ⟨q, next, s', _, hsettle, _⟩
    · rw [hsettle] at hs
      cases hs
      rw [hrun]
      rfl
    · rcases round_of_offer (P := P) (S := S) p s' with ⟨stop, hoffer, hround⟩ | ⟨hoffer, _⟩
      · rw [hsettle, hoffer] at hs
        cases hs
        rw [hrun]
        exact .last (by rw [hround])
      · rw [hsettle, hoffer] at hs
        cases hs
    · rw [hsettle] at hs
      cases hs
  | turn hr ih =>
    intro h s hs
    rcases run_of_settle (P := P) (S := S) h s with
      ⟨stop, hsettle, _⟩ | ⟨p, s', hsettle, hrun⟩ | ⟨q, next, s', hh, hsettle, hrun⟩
    · rw [hsettle] at hs
      cases hs
    · rcases round_of_offer (P := P) (S := S) p s' with
        ⟨stop, hoffer, _⟩ | ⟨hoffer, ⟨stop, hround, hturn⟩ | ⟨u, s', hround, hturn⟩⟩
      all_goals
        rw [hsettle, hoffer] at hs
        cases hs
      · rw [hturn] at hr
        cases hr
        rw [hrun]
        exact .last (by rw [hround])
      · rw [hrun]
        exact rounds_of_leaves (by rw [hround]; exact ih _ _ hturn)
    · rw [hsettle] at hs
      cases hs
      rw [hrun]
      exact ih _ _ (turn_question hh)

theorem concludes_of_leaves {r : Stop σ × Session τ} :
    ∀ (h : Handler σ) (s : Session τ),
      Session.Leaves (fun at_ => (P.offer S.isFull at_.1 at_.2).Concludes S P r) r
        (Session.afterHandler (h.run S s)) →
      (P.settle S.isFull h s).Concludes S P r := by
  intro h
  induction h with
  | finish p => intro s hs; exact hs
  | abort p => intro s hs; cases hs; exact .ended
  | panic message => intro s hs; cases hs; exact .ended
  | ask q next ih =>
    intro s hs
    cases hh : s.halted with
    | true =>
      rw [Handler.run, ask_of_halted hh] at hs
      simp only [Program.settle, hh, if_true]
      exact ih none s hs
    | false =>
      have hturn : (Pause.mk (.question q next) s).turn S P =
          P.settle S.isFull (next (s.ask S q).1) (s.ask S q).2 := turn_question hh
      rw [Handler.run] at hs
      rw [Program.settle, if_neg (by simp [hh])]
      exact .turn (by rw [hturn]; exact ih _ _ hs)
  | check holds message next ih => intro s hs; exact ih _ _ hs
  | tell n next ih => intro s hs; exact ih _ hs

theorem concludes_offer {p : σ} {s : Session τ} {r : Stop σ × Session τ}
    (h : Session.Leaves (fun at_ => (P.offer S.isFull at_.1 at_.2).Concludes S P r) r
      (Session.round S P (p, s))) :
    (P.offer S.isFull p s).Concludes S P r := by
  rcases round_of_offer (P := P) (S := S) p s with
    ⟨stop, hoffer, hround⟩ | ⟨hoffer, ⟨stop, hround, hturn⟩ | ⟨u, s', hround, hturn⟩⟩
  all_goals rw [hround] at h
  · cases h
    rw [hoffer]
    exact .ended
  · cases h
    rw [hoffer]
    exact .turn (by rw [hturn]; exact .ended)
  · rw [hoffer]
    exact .turn (by rw [hturn]; exact concludes_of_leaves _ _ h)

theorem concludes_of_rounds {at_ : σ × Session τ} {r : Stop σ × Session τ}
    (h : Session.Rounds S P r at_) : (P.offer S.isFull at_.1 at_.2).Concludes S P r := by
  induction h with
  | last hround =>
    refine concludes_offer ?_
    rw [Option.some.inj hround]
    rfl
  | next hround _ ih =>
    refine concludes_offer ?_
    rw [Option.some.inj hround]
    exact ih

/-- A run by handlers and rounds is a run by turns. -/
theorem drive_eq_some_iff {start : τ} {r : Stop σ × Session τ} :
    (∃ fuel, Session.drive fuel S P start = some r) ↔ (P.opening S start).Concludes S P r := by
  constructor
  · rintro ⟨fuel, h⟩
    refine concludes_of_leaves _ _ ?_
    unfold Session.drive at h
    split at h
    · rename_i hrun
      cases h
      rw [hrun]
      rfl
    · rename_i begun hrun
      rw [hrun]
      exact concludes_of_rounds (ends_of_iterate _ _ _ h)
  · intro h
    have hl := leaves_of_concludes h _ _ rfl
    unfold Session.drive
    split
    · rename_i hrun
      rw [hrun] at hl
      cases hl
      exact ⟨0, rfl⟩
    · rename_i begun hrun
      rw [hrun] at hl
      exact iterate_of_ends hl

theorem Juncture.Concludes.unique {x : Juncture σ τ} {r r' : Stop σ × Session τ}
    (h : x.Concludes S P r) (h' : x.Concludes S P r') : r = r' := by
  induction h with
  | ended => cases h'; rfl
  | turn _ ih =>
    cases h' with
    | turn h' => exact ih h'

theorem drive_mono {m n : Nat} {start : τ} {r : Stop σ × Session τ} (hmn : m ≤ n)
    (h : Session.drive m S P start = some r) : Session.drive n S P start = some r := by
  unfold Session.drive at h ⊢
  split at h
  · exact h
  · exact iterate_mono hmn h

end Runs
end Interleave
