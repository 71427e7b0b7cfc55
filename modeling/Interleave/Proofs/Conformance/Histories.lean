import Interleave.Minimize.Minimization
import Interleave.Proofs.Conformance.Plain

/-!
# Interleave.Proofs.Conformance.Histories

What a strategy answers after any history of calls, however it is put together of random walks,
searches and replays with the liveness check or the search for a critical transition over them.

* `Plan.after`: the state that a history of calls leaves a strategy in. The calls may fail, come in
  any order, and go to a strategy before another one is put over it.
* `Plan.Kept`: what every call keeps, so that all answers are proper (`conforms_kept`).
* `unit_enabled_after_calls`: only enabled units are scheduled.
* `integer_on_record_after_calls`: an integer is within range unless it is taken from a record; a
  record is followed whatever it holds, so that the range is missed (`handOff_beyond_range`).
-/

namespace Interleave

/-- A call on a strategy. -/
inductive Call
  | ask (r : Request) (scene : Scene)
  | prepare
  | reset
  /-- Note whether the length just tried shows the bug, where a trace is bisected. -/
  | update (found : Bool)
  /-- Restrict the bisection of a trace to the lengths between two. -/
  | narrow (left right : Nat)
  /-- A call on the strategy below. -/
  | under (call : Call)

namespace Plan

/-- No part of the plan answers whatever is enabled. -/
def Unscripted : Plan → Prop
  | scripted _ => False
  | watch _ _ _ base => base.Unscripted
  | transition _ _ _ _ suffix => suffix.Unscripted
  | _ => True

/-- What a call leaves behind. -/
def perform : Call → (p : Plan) → p.State → p.State
  | .ask r scene, p, s => (p.strategy.answer r scene s).state
  | .prepare, p, s => (p.strategy.prepare s).2
  | .reset, p, s => p.strategy.reset s
  | .update found, p, s => p.bisecting?.elim s fun B => (B.update found s).2
  | .narrow left right, p, s => p.bisecting?.elim s fun B => B.narrow left right s
  | .under call, watch _ _ _ base, s => { s with base := perform call base s.base }
  | .under call, transition _ _ _ _ suffix, s =>
    { s with suffix := perform call suffix s.suffix }
  | .under _, _, s => s

/-- The state after a history of calls. -/
def after (p : Plan) (calls : List Call) : p.State :=
  calls.foldl (fun s call => perform call p s) p.start

/-- What every call keeps: the paths of searches are within range. -/
def Kept : (p : Plan) → p.State → Prop
  | depthFirst _, s => DepthFirst.InRange s
  | partialOrder _, s => PartialOrder.Sound s ∧ PartialOrder.InRange s
  | watch _ _ _ base, s => base.Kept s.base
  | transition _ _ _ _ suffix, s => suffix.Kept s.suffix
  | _, _ => True

end Plan

section Keeping

theorem depthFirst_conforms_inRange : DepthFirst.strategy.Conforms DepthFirst.InRange where
  answer r _ := depthFirst_plain.keeps r
  prepare := depthFirst_plain.prepare
  reset := depthFirst_plain.reset
  served r scene s _ := depthFirst_conforms.served r scene s trivial
  observed := depthFirst_conforms.observed

theorem partialOrder_conforms_inRange :
    PartialOrder.strategy.Conforms fun s => s.Sound ∧ s.InRange where
  answer r _ := partialOrder_plain.keeps r
  prepare := partialOrder_plain.prepare
  reset := partialOrder_plain.reset
  served r scene s hs := partialOrder_conforms.served r scene s hs.1
  observed := partialOrder_conforms.observed

namespace Plan

theorem conforms_kept (p : Plan) (hp : p.Unscripted) : p.strategy.Conforms p.Kept := by
  induction p with
  | random seed bound => exact randomWalk_conforms
  | depthFirst bound => exact depthFirst_conforms_inRange
  | partialOrder bound => exact partialOrder_conforms_inRange
  | replay trace fair => exact replay_conforms
  | scripted script => exact hp.elim
  | watch seed safetyPrefix threshold base ih => exact watched_conforms (ih hp)
  | transition trace fair fairBound maxWalks suffix ih => exact forked_conforms (ih hp)
  | wholeTrace trace fair fairBound maxWalks => exact wholeTrace_conforms

theorem kept_start (p : Plan) : p.Kept p.start := by
  induction p with
  | depthFirst bound => exact ⟨nofun, nofun⟩
  | partialOrder bound =>
    exact ⟨PartialOrder.sound_new bound, nofun, nofun⟩
  | watch seed safetyPrefix threshold base ih => exact ih
  | transition trace fair fairBound maxWalks suffix ih => exact ih
  | random seed bound => trivial
  | replay trace fair => trivial
  | scripted script => trivial
  | wholeTrace trace fair fairBound maxWalks => trivial

/-- A plan that bisects a trace does so with a suffix or without one. -/
theorem bisecting_cases
    {motive : (p : Plan) → (B : Bisecting p.State) → p.bisecting? = some B → Prop}
    (transition : ∀ trace fair fairBound maxWalks suffix,
      motive (.transition trace fair fairBound maxWalks suffix)
        (Forked.bisecting suffix.strategy) rfl)
    (wholeTrace : ∀ trace fair fairBound maxWalks,
      motive (.wholeTrace trace fair fairBound maxWalks) Transition.bisecting rfl)
    (p : Plan) (B : Bisecting p.State) (hB : p.bisecting? = some B) : motive p B hB := by
  cases p with
  | transition trace fair fairBound maxWalks suffix => cases hB; exact transition ..
  | wholeTrace trace fair fairBound maxWalks => cases hB; exact wholeTrace ..
  | random seed bound => cases hB
  | depthFirst bound => cases hB
  | partialOrder bound => cases hB
  | replay trace fair => cases hB
  | scripted script => cases hB
  | watch seed safetyPrefix threshold base => cases hB

/-- What concerns only the bisection leaves the paths of the searches alone. -/
theorem kept_bisecting {p : Plan} {B : Bisecting p.State} (hB : p.bisecting? = some B) {s : p.State}
    (hs : p.Kept s) :
    (∀ found, p.Kept (B.update found s).2) ∧ ∀ left right, p.Kept (B.narrow left right s) := by
  cases p, B, hB using bisecting_cases with
  | transition trace fair fairBound maxWalks suffix => exact ⟨fun _ => hs, fun _ _ => hs⟩
  | wholeTrace trace fair fairBound maxWalks => exact ⟨fun _ => trivial, fun _ _ => trivial⟩

theorem kept_perform (call : Call) (p : Plan) (hp : p.Unscripted) {s : p.State} (hs : p.Kept s) :
    p.Kept (perform call p s) := by
  induction call generalizing p with
  | ask r scene => exact (p.conforms_kept hp).answer r scene s hs
  | prepare => exact (p.conforms_kept hp).prepare s hs
  | reset => exact (p.conforms_kept hp).reset s hs
  | update found =>
    unfold perform
    cases hB : p.bisecting? with
    | none => exact hs
    | some B => exact (kept_bisecting hB hs).1 found
  | narrow left right =>
    unfold perform
    cases hB : p.bisecting? with
    | none => exact hs
    | some B => exact (kept_bisecting hB hs).2 left right
  | under call ih =>
    cases p with
    | watch seed safetyPrefix threshold base => exact ih base hp hs
    | transition trace fair fairBound maxWalks suffix => exact ih suffix hp hs
    | random seed bound => exact hs
    | depthFirst bound => exact hs
    | partialOrder bound => exact hs
    | replay trace fair => exact hs
    | scripted script => exact hs
    | wholeTrace trace fair fairBound maxWalks => exact hs

theorem after_concat (p : Plan) (calls : List Call) (call : Call) :
    p.after (calls ++ [call]) = perform call p (p.after calls) := by
  simp [after]

theorem kept_after (p : Plan) (hp : p.Unscripted) (calls : List Call) :
    p.Kept (p.after calls) := by
  induction calls using List.reverseRecOn with
  | nil => exact p.kept_start
  | append_singleton calls call ih =>
    rw [after_concat]
    exact kept_perform call p hp ih

/-- What a strategy makes of a request after a history of calls. -/
def resultAfter (p : Plan) (calls : List Call) (r : Request) (scene : Scene) :
    Except Refusal r.Reply :=
  (p.strategy.answer r scene (p.after calls)).result

end Plan
end Keeping

section Units

theorem mem_enabledIds_iff {candidates : List Candidate} {u : UnitId} :
    u ∈ enabledIds candidates ↔ ∃ c ∈ candidates, c.id = u ∧ c.enabled = true := by
  simp only [enabledIds, List.mem_map, List.mem_filter]
  constructor
  · rintro ⟨c, ⟨hmem, henabled⟩, hid⟩
    exact ⟨c, hmem, hid, henabled⟩
  · rintro ⟨c, hmem, hid, henabled⟩
    exact ⟨c, ⟨hmem, henabled⟩, hid⟩

/-- A search that follows its path finds the unit at the recorded place of the list; the default of
`reply` is never taken. -/
theorem DepthFirst.unit_at_taken {s : DepthFirst} (hs : s.InRange) {candidates : List Candidate}
    {current : Option Candidate} {u : UnitId}
    (hu : (s.reply (.unit candidates current)).1 = .ok u) :
    ∃ i, (s.visit (.units (enabledIds candidates))).1 = .ok i ∧
      (enabledIds candidates)[i]? = some u := by
  rw [reply] at hu
  cases hids : enabledIds candidates with
  | nil => rw [hids] at hu; cases hu
  | cons first rest =>
    have hrange := (visit_inRange hs (.units (first :: rest)) (Nat.succ_pos _)).2
    rw [hids] at hu
    obtain ⟨visited, t, hvisit⟩ : ∃ visited t, s.visit (.units (first :: rest)) = (visited, t) :=
      ⟨_, _, rfl⟩
    rw [hvisit] at hrange
    simp only [hvisit] at hu
    cases visited with
    | error refusal => cases hu
    | ok i =>
      have hlt : i < (first :: rest).length := hrange i rfl
      cases hu
      refine ⟨i, by rw [hvisit], ?_⟩
      show _ = some ((first :: rest).getD i first)
      rw [List.getD_eq_getElem?_getD, List.getElem?_eq_getElem hlt, Option.getD_some]

theorem Request.eq_unit_of_nothingEnabled {r : Request} (h : r.nothingEnabled = true) :
    ∃ candidates current, r = .unit candidates current ∧ enabledIds candidates = [] := by
  cases r with
  | unit candidates current => exact ⟨candidates, current, rfl, List.isEmpty_iff.1 h⟩
  | boolean max => cases h
  | integer max => cases h

theorem not_admits_of_nothingEnabled {r : Request} (h : r.nothingEnabled = true) (v : r.Reply) :
    ¬ r.Admits v := by
  obtain ⟨candidates, current, rfl, hnil⟩ := r.eq_unit_of_nothingEnabled h
  rw [Request.Admits, hnil]
  exact List.not_mem_nil

/-- A refusal as it is due where nothing is enabled. A liveness bug may be confirmed there first. -/
def RefusesRest {α : Type} (result : Except Refusal α) : Prop :=
  result = .error .noEnabledChoice ∨ ∃ v, result = .error (.liveness v)

theorem refusesRest_of_nothingEnabled (p : Plan) (hp : p.Unscripted) {r : Request}
    (h : r.nothingEnabled = true) (scene : Scene) (s : p.State) :
    RefusesRest (p.strategy.answer r scene s).result := by
  induction p generalizing scene with
  | random seed bound =>
    obtain ⟨candidates, current, rfl, hnil⟩ := r.eq_unit_of_nothingEnabled h
    left
    show (RandomWalk.reply _ s).1 = _
    rw [RandomWalk.reply, hnil]
  | depthFirst bound =>
    obtain ⟨candidates, current, rfl, hnil⟩ := r.eq_unit_of_nothingEnabled h
    left
    show (DepthFirst.reply _ s).1 = _
    rw [DepthFirst.reply, hnil]
  | partialOrder bound =>
    obtain ⟨candidates, current, rfl, hnil⟩ := r.eq_unit_of_nothingEnabled h
    left
    show (PartialOrder.visitUnit candidates s).1 = _
    rw [PartialOrder.visitUnit, hnil]
    rfl
  | replay trace fair =>
    left
    show (Replay.reply r s).1 = _
    rw [Replay.reply, if_pos h]
  | wholeTrace trace fair fairBound maxWalks =>
    left
    show (Transition.reply r s).1 = _
    rw [Transition.reply, if_pos h]
  | scripted script => exact hp.elim
  | watch seed safetyPrefix threshold base ih =>
    show RefusesRest ((Watched.strategy base.strategy).answer r scene s).result
    have ha := watched_answer base.strategy r scene s
    generalize (Watched.strategy base.strategy).answer r scene s = a at ha ⊢
    cases ha with
    | confirmed => exact .inr ⟨_, rfl⟩
    | followed _ _ _ haccept =>
      exact absurd (admits_of_accept? haccept) (not_admits_of_nothingEnabled h _)
    | forwarded => exact ih hp _ _
  | transition trace fair fairBound maxWalks suffix ih =>
    show RefusesRest (Forked.answer suffix.strategy r scene s).result
    unfold Forked.answer
    have hconsulted := consulted r s.transition
    generalize s.transition.consult r = x at hconsulted ⊢
    cases hconsulted with
    | reply hv => exact absurd hv (not_admits_of_nothingEnabled h _)
    | refuse => exact .inl rfl
    | forward => exact ih hp _ _

/-- Only enabled units are scheduled, whatever has been asked before and whatever has failed; where
none is enabled the strategy refuses. -/
theorem unit_enabled_after_calls (p : Plan) (hp : p.Unscripted) (calls : List Call)
    (candidates : List Candidate) (current : Option Candidate) (scene : Scene) :
    (∀ u, p.resultAfter calls (.unit candidates current) scene = .ok u →
      ∃ c ∈ candidates, c.id = u ∧ c.enabled = true) ∧
    ((∀ c ∈ candidates, c.enabled = false) →
      RefusesRest (p.resultAfter calls (.unit candidates current) scene)) := by
  constructor
  · intro u hu
    have hserved := (p.conforms_kept hp).served (.unit candidates current) scene (p.after calls)
      (p.kept_after hp calls)
    rw [show (p.strategy.answer _ _ _).result = _ from hu] at hserved
    exact mem_enabledIds_iff.1 hserved.admits
  · intro hnone
    have hrest : (Request.unit candidates current).nothingEnabled = true := by
      refine List.isEmpty_iff.2 (List.eq_nil_iff_forall_not_mem.2 fun u hu => ?_)
      obtain ⟨c, hmem, _, henabled⟩ := mem_enabledIds_iff.1 hu
      rw [hnone c hmem] at henabled
      cases henabled
    exact refusesRest_of_nothingEnabled p hp hrest scene (p.after calls)

/-- The liveness check over a search for a critical transition over a search. -/
def checkedHandOff : Plan :=
  .watch 7 0 2 (.transition (.ofList [.unit ⟨2⟩, .unit ⟨1⟩]) false 10 1 (.partialOrder 5))

/-- A run over two units, the first choice of which is on the trace, and a bisection narrowed. -/
def twoUnitCalls : List Call :=
  [.ask (.unit [.actor ⟨1⟩, .actor ⟨2⟩] none) .empty,
    .ask (.unit [.actor ⟨1⟩, .actor ⟨2⟩] none) .empty,
    .ask (.unit [] none) .empty,
    .prepare,
    .under (.narrow 0 4)]

theorem unit_enabled_checkedHandOff :
    checkedHandOff.resultAfter twoUnitCalls
        (.unit [.actor ⟨1⟩, { Candidate.actor ⟨2⟩ with enabled := false }] none) .empty = .ok ⟨1⟩ ∧
      ∃ c ∈ [Candidate.actor ⟨1⟩, { Candidate.actor ⟨2⟩ with enabled := false }],
        c.id = ⟨1⟩ ∧ c.enabled = true := by
  have hresult : checkedHandOff.resultAfter twoUnitCalls
      (.unit [.actor ⟨1⟩, { Candidate.actor ⟨2⟩ with enabled := false }] none) .empty =
        .ok ⟨1⟩ := by decide +kernel
  exact ⟨hresult, (unit_enabled_after_calls checkedHandOff trivial twoUnitCalls _ _ _).1 _ hresult⟩

end Units

section Integers

theorem lt_of_mem_replies {max v : UInt64} (h : v ∈ (Request.integer max).replies) :
    v < alternativesOf max := by
  obtain ⟨i, hi, rfl⟩ := List.mem_map.1 h
  rw [UInt64.lt_iff_toNat_lt, UInt64.toNat_ofNat']
  exact lt_of_le_of_lt (Nat.mod_le _ _) (List.mem_range.1 hi)

/-- The integer at the place of a cycle that comes next. -/
def Detector.integer? (d : Detector) : Option UInt64 :=
  d.chase.bind fun c => (c.cycle[c.cursor]?).bind fun step => step.choice.integer?

/-- The integer at the place of a trace that comes next, as long as the trace is followed. -/
def Transition.integer? (t : Transition) : Option UInt64 :=
  if t.following && decide (t.followed < t.bisection.current) then
    (t.trace.get? t.followed).bind Choice.integer?
  else none

/-- The integer on record for the next step, where a record is being followed. What the liveness
check finds before the step decides whether it follows one. -/
def Plan.integerOnRecord? : (p : Plan) → Scene → p.State → Option UInt64
  | replay _ _, _, s => (Trace.get? s.trace s.cursor).bind Choice.integer?
  | wholeTrace _ _ _ _, _, t => (Trace.get? t.trace t.followed).bind Choice.integer?
  | watch _ _ _ base, scene, s =>
    match s.finding base.strategy scene with
    | (some _, _, _) => none
    | (none, d, observer) =>
      d.integer?.or (base.integerOnRecord? { scene with observer } s.base)
  | transition _ _ _ _ suffix, scene, s =>
    s.transition.integer?.or (suffix.integerOnRecord? scene s.suffix)
  | _, _, _ => none

/-- An integer on record is the answer to a request, and any other answer is within its range. -/
structure AnswersInteger (max : UInt64) (record : Option UInt64) (result : Except Refusal UInt64) :
    Prop where
  recorded : ∀ v, record = some v → result = .ok v
  inRange : ∀ v, result = .ok v → record = some v ∨ v < alternativesOf max

theorem AnswersInteger.of_recorded {max v : UInt64} {record : Option UInt64}
    (h : record = some v) : AnswersInteger max record (.ok v) where
  recorded w hw := by rw [← Option.some.inj (h.symm.trans hw)]
  inRange w hw := by cases hw; exact .inl h

theorem AnswersInteger.of_none {max : UInt64} {record : Option UInt64}
    {result : Except Refusal UInt64} (h : record = none)
    (hrange : ∀ v, result = .ok v → v < alternativesOf max) :
    AnswersInteger max record result where
  recorded v hv := by rw [h] at hv; cases hv
  inRange v hv := .inr (hrange v hv)

theorem eq_none_of_error {ε α : Type} {result : Except ε α} {record : Option α} {e : ε}
    (h : ∀ {v}, result = .ok v ↔ record = some v) (he : result = .error e) : record = none := by
  refine Option.eq_none_iff_forall_ne_some.2 fun v hv => ?_
  rw [h.2 hv] at he
  cases he

theorem Strategy.Plain.answersInteger {τ : Type} {S : Strategy τ}
    {reply : (r : Request) → τ → Except Refusal r.Reply × τ} {Inv : τ → Prop}
    (h : S.Plain reply Inv) (max : UInt64) (scene : Scene) {s : τ} (hs : Inv s) :
    AnswersInteger max none (S.answer (.integer max) scene s).result := by
  refine .of_none rfl fun v hv => lt_of_mem_replies (h.mem_replies hs ?_)
  rw [h.answer_eq] at hv
  exact hv

theorem Replay.answersInteger (max : UInt64) (s : Replay) :
    AnswersInteger max ((s.trace.get? s.cursor).bind Choice.integer?)
      (s.reply (.integer max)).1 := by
  rw [reply, if_neg nofun]
  cases h : s.recorded (.integer max) with
  | ok v => exact .of_recorded (recorded_eq_ok_iff.1 h)
  | error reason => exact .of_none (eq_none_of_error recorded_eq_ok_iff h) nofun

theorem Transition.answersInteger (max : UInt64) (t : Transition) :
    AnswersInteger max ((t.trace.get? t.followed).bind Choice.integer?)
      (t.reply (.integer max)).1 := by
  rw [reply, if_neg nofun]
  cases h : t.recorded (.integer max) with
  | ok v => exact .of_recorded (recorded_eq_ok_iff.1 h)
  | error reason => exact .of_none (eq_none_of_error recorded_eq_ok_iff h) nofun

/-- As long as the trace is followed it gives the integer, or the suffix takes over. -/
theorem Transition.consult_integer (max : UInt64) (t : Transition) :
    (∃ v t', t.integer? = some v ∧ t.consult (.integer max) = (.reply v, t')) ∨
      (t.integer? = none ∧ ∃ t', t.consult (.integer max) = (.forward, t')) := by
  unfold integer? consult
  split
  · rw [if_neg nofun]
    cases h : t.recorded (.integer max) with
    | ok v => exact .inl ⟨v, _, recorded_eq_ok_iff.1 h, rfl⟩
    | error reason => exact .inr ⟨eq_none_of_error recorded_eq_ok_iff h, _, rfl⟩
  · exact .inr ⟨rfl, _, rfl⟩

theorem Detector.integer?_eq_none {d : Detector} {max : UInt64}
    (h : ∀ c step, d.chase = some c → c.cycle[c.cursor]? = some step →
      (Request.integer max).accept? step.choice = none) : d.integer? = none := by
  unfold integer?
  cases hchase : d.chase with
  | none => rfl
  | some c =>
    rw [Option.bind_some]
    cases hstep : c.cycle[c.cursor]? with
    | none => rfl
    | some step => exact h c step hchase hstep

theorem Plan.answersInteger (p : Plan) (hp : p.Unscripted) (max : UInt64) (scene : Scene)
    {s : p.State} (hs : p.Kept s) :
    AnswersInteger max (p.integerOnRecord? scene s)
      (p.strategy.answer (.integer max) scene s).result := by
  induction p generalizing scene with
  | random seed bound => exact randomWalk_plain.answersInteger max scene trivial
  | depthFirst bound => exact depthFirst_plain.answersInteger max scene hs
  | partialOrder bound => exact partialOrder_plain.answersInteger max scene hs
  | replay trace fair => exact Replay.answersInteger max s
  | wholeTrace trace fair fairBound maxWalks => exact Transition.answersInteger max s
  | scripted script => exact hp.elim
  | watch seed safetyPrefix threshold base ih =>
    show AnswersInteger max _
      ((Watched.strategy base.strategy).answer (.integer max) scene s).result
    have ha := watched_answer base.strategy (.integer max) scene s
    generalize (Watched.strategy base.strategy).answer (.integer max) scene s = a at ha ⊢
    cases ha with
    | confirmed hfinding =>
      refine .of_none ?_ nofun
      simp only [integerOnRecord?, hfinding]
    | @followed d observer c step value hfinding hchase hstep haccept =>
      refine .of_recorded ?_
      have hnext : d.integer? = some value := by
        rw [Detector.integer?, hchase, Option.bind_some, hstep]
        exact haccept
      simp only [integerOnRecord?, hfinding, hnext, Option.some_or]
    | forwarded hfinding hnone =>
      simp only [integerOnRecord?, hfinding, Detector.integer?_eq_none hnone, Option.none_or]
      exact ih hp _ hs
  | transition trace fair fairBound maxWalks suffix ih =>
    show AnswersInteger max (s.transition.integer?.or (suffix.integerOnRecord? scene s.suffix))
      (Forked.answer suffix.strategy (.integer max) scene s).result
    unfold Forked.answer
    rcases s.transition.consult_integer max with ⟨v, t', hnext, hconsult⟩ | ⟨hnone, t', hconsult⟩
    · rw [hconsult, hnext]
      exact .of_recorded rfl
    · rw [hconsult, hnone]
      exact ih hp scene hs

/-- An integer on record is the answer whatever the range of the request; where there is none the
answer is within range. -/
theorem integer_on_record_after_calls (p : Plan) (hp : p.Unscripted) (calls : List Call)
    (max : UInt64) (scene : Scene) :
    (∀ v, p.integerOnRecord? scene (p.after calls) = some v →
      p.resultAfter calls (.integer max) scene = .ok v) ∧
    ∀ v, p.resultAfter calls (.integer max) scene = .ok v →
      p.integerOnRecord? scene (p.after calls) = some v ∨ v < alternativesOf max :=
  have h := p.answersInteger hp max scene (p.kept_after hp calls)
  ⟨h.recorded, h.inRange⟩

/-- A trace of two integers, the first of which is followed before a search takes over. -/
def handOff : Plan := .transition (.ofList [.integer 7, .integer 7]) true 10 1 (.depthFirst 0)

/-- Of three alternatives the eighth. -/
theorem handOff_beyond_range :
    handOff.resultAfter [] (.integer 3) .empty = .ok 7 ∧ ¬ 7 < alternativesOf 3 := by
  decide +kernel

/-- Once the trace is left the search answers within range. -/
theorem handOff_in_range :
    ∃ v, handOff.resultAfter [.ask (.integer 3) .empty] (.integer 3) .empty = .ok v ∧
      v < alternativesOf 3 := by
  have hresult : handOff.resultAfter [.ask (.integer 3) .empty] (.integer 3) .empty = .ok 0 := by
    decide +kernel
  have hnone : handOff.integerOnRecord? .empty (handOff.after [.ask (.integer 3) .empty]) = none :=
    by decide +kernel
  refine ⟨0, hresult, ?_⟩
  rcases (integer_on_record_after_calls handOff trivial _ 3 .empty).2 0 hresult with h | h
  · rw [hnone] at h
    cases h
  · exact h

end Integers

end Interleave
