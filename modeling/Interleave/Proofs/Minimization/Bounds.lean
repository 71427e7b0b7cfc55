import Interleave.Proofs.Conformance.Histories
import Interleave.Proofs.Minimization.Trials

/-!
# Interleave.Proofs.Minimization.Bounds

The cursor of a bisection under any calls, and the bisection of a trace between two lengths.

* `Bisection.moved`: the cursor after a history of calls, which may set or close the interval at any
  time; `bisection_after` finds such a history behind any history of calls on a strategy.
* `Bisection.cursor_after_moves`: the interval stays in order. The length found last was tried and
  showed the bug, and the interval ends there unless a later call puts its end elsewhere, be it
  beyond that length (`end_beyond_found`).
* `Bisecting.Keeps`: what every call of a bisection keeps holds of all its rounds and of its report.
* `narrowed_search_within`: a search between two lengths stays below the end of the trace, unless it
  is to begin beyond it (`narrowed_beyond_trace`).
-/

namespace Interleave
namespace Bisection

/-- A call on a cursor. -/
inductive Move
  | set (left right : Nat)
  | update (found : Bool)
  | closeAt (length : Nat) (found : Bool)

namespace Move

def apply : Move → Bisection → Bisection
  | set left right, b => b.set left right
  | update found, b => (b.update found).2
  | closeAt length found, b => b.closeAt length found

/-- Whether the call reports that a length has shown the bug. -/
def found : Move → Bool
  | set _ _ => false
  | update found => found
  | closeAt _ found => found

/-- The length that has been tried. -/
def tried? : Move → Bisection → Option Nat
  | set _ _, _ => none
  | update _, b => some b.current
  | closeAt length _, _ => some length

/-- Where the call puts the end of the interval, if not by what the current length has shown. -/
def end? : Move → Option Nat
  | set left right => some (max left right)
  | update _ => none
  | closeAt length _ => some length

end Move

/-- The cursor over a trace of `length` steps after a history of calls. -/
def moved (length : Nat) (moves : List Move) : Bisection :=
  moves.foldl (fun b move => move.apply b) (.new length)

/-- The last report in a history of calls is of this length, and these are the calls since. -/
structure LastReport (length : Nat) (moves : List Move) (found : Nat) (since : List Move) :
    Prop where
  report : ∃ earlier move, moves = earlier ++ move :: since ∧ move.found = true ∧
    move.tried? (moved length earlier) = some found
  silent : ∀ move ∈ since, move.found = false

section Moves

variable {length f : Nat} {moves since : List Move} {move : Move} {b : Bisection}

@[simp] theorem moved_concat (length : Nat) (moves : List Move) (move : Move) :
    moved length (moves ++ [move]) = move.apply (moved length moves) := by
  simp [moved]

theorem Centred.apply (h : b.Centred) (move : Move) : (move.apply b).Centred := by
  cases move with
  | set left right => exact centred_set left right b
  | update found => exact h.update found
  | closeAt length found => exact centred_closeAt length found b

theorem centred_moved (length : Nat) (moves : List Move) : (moved length moves).Centred := by
  induction moves using List.reverseRecOn with
  | nil => exact centred_new length
  | append_singleton moves move ih =>
    rw [moved_concat]
    exact ih.apply move

/-- A report closes the interval at the length that has been tried. -/
theorem Move.apply_of_found (h : move.found = true) :
    ∃ f, move.tried? b = some f ∧ (move.apply b).lastFound = some f ∧
      (move.apply b).right = f := by
  cases move with
  | set left right => cases h
  | update found => cases h; exact ⟨_, rfl, rfl, rfl⟩
  | closeAt length found => cases h; exact ⟨_, rfl, rfl, rfl⟩

/-- Any other call leaves the report alone. -/
theorem Move.apply_of_silent (h : move.found = false) :
    (move.apply b).lastFound = b.lastFound ∧ (move.apply b).right = move.end?.getD b.right := by
  cases move with
  | set left right => exact ⟨rfl, rfl⟩
  | update found => cases h; exact ⟨rfl, rfl⟩
  | closeAt length found => cases h; exact ⟨rfl, rfl⟩

theorem LastReport.concat (h : LastReport length moves f since) (hmove : move.found = false) :
    LastReport length (moves ++ [move]) f (since ++ [move]) := by
  obtain ⟨earlier, report, rfl, hreport⟩ := h.report
  refine ⟨⟨earlier, report, List.append_assoc _ _ _, hreport⟩, fun m hm => ?_⟩
  rcases List.mem_append.1 hm with hm | hm
  · exact h.silent m hm
  · rw [List.mem_singleton.1 hm]
    exact hmove

/-- By induction on the calls. A report begins a new count of the calls since; any other call is one
more of them, and it decides where the interval ends if it puts the end anywhere. -/
theorem exists_lastReport (hlast : (moved length moves).lastFound = some f) :
    ∃ since, LastReport length moves f since ∧
      (moved length moves).right = (since.filterMap Move.end?).getLast?.getD f := by
  induction moves using List.reverseRecOn with
  | nil => cases hlast
  | append_singleton moves move ih =>
    rw [moved_concat] at hlast ⊢
    cases hmove : move.found with
    | true =>
      obtain ⟨g, htried, hfound, hright⟩ := Move.apply_of_found (b := moved length moves) hmove
      obtain rfl : g = f := Option.some.inj (hfound.symm.trans hlast)
      exact ⟨[], ⟨⟨moves, move, rfl, hmove, htried⟩, nofun⟩, hright⟩
    | false =>
      obtain ⟨hsame, hright⟩ := Move.apply_of_silent (b := moved length moves) hmove
      obtain ⟨since, hreport, hend⟩ := ih (hsame ▸ hlast)
      refine ⟨since ++ [move], hreport.concat hmove, ?_⟩
      rw [hright, hend, List.filterMap_append]
      cases hmove : move.end? <;> simp [hmove]

end Moves
end Bisection

section Calls

/-- What a call on a strategy that bisects a trace means for its cursor. -/
def Plan.move? : Plan → Call → Option Bisection.Move
  | transition _ _ _ _ _, .update found => some (.update found)
  | wholeTrace trace _ _ _, .update found => some (.closeAt trace.length found)
  | transition trace _ _ _ _, .narrow left right => some (.set left (min right trace.length))
  | wholeTrace trace _ _ _, .narrow left right => some (.set left (min right trace.length))
  | _, _ => none

/-- A run changes nothing but how far the trace has been followed. -/
theorem Transition.beginRun_reply (r : Request) (t : Transition) :
    (t.reply r).2.beginRun = t.beginRun := by
  unfold reply
  repeat' split
  all_goals rfl

/-- A call moves the cursor at most once and leaves the trace alone. -/
theorem transition_perform {p : Plan} {B : Bisecting p.State} (hB : p.bisecting? = some B)
    (call : Call) {s : p.State} (hs : (B.transition s).trace = (B.transition p.start).trace) :
    (B.transition (p.perform call s)).trace = (B.transition p.start).trace ∧
      (B.transition (p.perform call s)).bisection =
        (p.move? call).elim (B.transition s).bisection fun move =>
          move.apply (B.transition s).bisection := by
  cases p, B, hB using Plan.bisecting_cases with
  | transition trace fair fairBound maxWalks suffix =>
    have htrace : s.transition.trace = trace := hs
    cases call with
    | ask r scene =>
      have hrun := Forked.beginRun_answer suffix.strategy r scene s
      exact ⟨(congrArg Transition.trace hrun :).trans hs, (congrArg Transition.bisection hrun :)⟩
    | prepare => exact ⟨hs, rfl⟩
    | reset => exact ⟨hs, rfl⟩
    | update found => exact ⟨hs, rfl⟩
    | narrow left right =>
      refine ⟨hs, ?_⟩
      show s.transition.bisection.set left (min right s.transition.trace.length) = _
      rw [htrace]
      rfl
    | under call => exact ⟨hs, rfl⟩
  | wholeTrace trace fair fairBound maxWalks =>
    have htrace : s.trace = trace := hs
    cases call with
    | ask r scene =>
      have hrun := Transition.beginRun_reply r s
      exact ⟨(congrArg Transition.trace hrun :).trans hs, (congrArg Transition.bisection hrun :)⟩
    | prepare => exact ⟨hs, rfl⟩
    | reset => exact ⟨hs, rfl⟩
    | update found =>
      refine ⟨hs, ?_⟩
      show s.bisection.closeAt s.trace.length found = _
      rw [htrace]
      rfl
    | narrow left right =>
      refine ⟨hs, ?_⟩
      show s.bisection.set left (min right s.trace.length) = _
      rw [htrace]
      rfl
    | under call => exact ⟨hs, rfl⟩

theorem bisection_start {p : Plan} {B : Bisecting p.State} (hB : p.bisecting? = some B) :
    (B.transition p.start).bisection = .new (B.transition p.start).trace.length := by
  cases p, B, hB using Plan.bisecting_cases with
  | transition trace fair fairBound maxWalks suffix => rfl
  | wholeTrace trace fair fairBound maxWalks => rfl

/-- Behind a history of calls on a strategy there is one of calls on its cursor. -/
theorem bisection_after {p : Plan} {B : Bisecting p.State} (hB : p.bisecting? = some B)
    (calls : List Call) :
    (B.transition (p.after calls)).trace = (B.transition p.start).trace ∧
      (B.transition (p.after calls)).bisection =
        .moved (B.transition p.start).trace.length (calls.filterMap p.move?) := by
  induction calls using List.reverseRecOn with
  | nil => exact ⟨rfl, bisection_start hB⟩
  | append_singleton calls call ih =>
    obtain ⟨htrace, hbisection⟩ := transition_perform hB call ih.1
    rw [Plan.after_concat, hbisection, ih.2, List.filterMap_append]
    refine ⟨htrace, ?_⟩
    cases hmove : p.move? call <;> simp [hmove]

/-- After any calls the cursor is in order, and the length found last is the one that the last
report was about. The interval ends there, or where the last call since that has set or closed it
has put its end; so it is beyond that length just if that call has put it there. The cursor of a
strategy goes through such calls. -/
theorem Bisection.cursor_after_moves (length : Nat) (moves : List Move) :
    let b := moved length moves
    (b.left ≤ b.current ∧ b.current ≤ b.right) ∧
    (∀ f, b.lastFound = some f → ∃ since, LastReport length moves f since ∧
      b.right = (since.filterMap Move.end?).getLast?.getD f ∧
      (b.right ≤ f ↔ ∀ last, (since.filterMap Move.end?).getLast? = some last → last ≤ f)) ∧
    ∀ (p : Plan) (B : Bisecting p.State), p.bisecting? = some B →
      (B.transition p.start).trace.length = length → ∀ calls, calls.filterMap p.move? = moves →
      (B.transition (p.after calls)).bisection = b := by
  intro b
  obtain ⟨hleft, hright, -, -⟩ := (centred_moved length moves).bounds
  refine ⟨⟨hleft, hright⟩, fun f hlast => ?_, ?_⟩
  · obtain ⟨since, hreport, hend⟩ := exists_lastReport hlast
    refine ⟨since, hreport, hend, ?_⟩
    rw [hend]
    cases (since.filterMap Move.end?).getLast? with
    | none => simp
    | some last => simp
  · rintro p B hB rfl calls rfl
    exact (bisection_after hB calls).2

/-- Five of ten steps have shown a bug, and then the search is to go over all ten again. -/
theorem Bisection.end_beyond_found :
    let b := moved 10 [.update true, .set 0 10]
    b.lastFound = some 5 ∧ ¬ b.right ≤ 5 := by
  decide

/-- The bisection of ten steps, with a search for the suffix. -/
abbrev tenSteps : Plan := bisectionPlan (List.replicate 10 ⟨1⟩)

/-- As before, and then five steps do not show the bug again. -/
theorem Bisection.cursor_after_moves_reset :
    let calls := [Call.update true, .narrow 0 10, .update false]
    let moves := [Move.update true, .set 0 10, .update false]
    let b := ((Forked.bisecting DepthFirst.strategy).transition (tenSteps.after calls)).bisection
    tenSteps.bisecting? = some (Forked.bisecting DepthFirst.strategy) ∧
      b.lastFound = some 5 ∧ ∃ since, LastReport 10 moves 5 since ∧
        b.right = (since.filterMap Move.end?).getLast?.getD 5 ∧
        (b.right ≤ 5 ↔ ∀ last, (since.filterMap Move.end?).getLast? = some last → last ≤ 5) := by
  intro calls moves b
  have hB : tenSteps.bisecting? = some (Forked.bisecting DepthFirst.strategy) := rfl
  obtain ⟨_, hreports, hstrategy⟩ := cursor_after_moves 10 moves
  have hmoved : b = moved 10 moves := hstrategy tenSteps _ hB rfl calls rfl
  have hlast : (moved 10 moves).lastFound = some 5 := by decide
  rw [hmoved]
  exact ⟨hB, hlast, hreports 5 hlast⟩

end Calls

section Keeping

variable {σ τ η : Type} {B : Bisecting τ} {I : τ → Prop} {fuel : Nat} {P : Program σ} {H : Host η}
  {c : Configuration}

/-- What every call that a bisection makes on its strategy keeps. -/
structure Bisecting.Keeps (B : Bisecting τ) (I : τ → Prop) : Prop where
  answer : ∀ r scene s, I s → I (B.answer r scene s).state
  prepare : ∀ s, I s → I (B.prepare s).2
  reset : ∀ s, I s → I (B.reset s)
  update : ∀ found s, I s → I (B.update found s).2

theorem Bisecting.Keeps.drive (h : B.Keeps I) {s : τ} (hs : I s) {r : Stop σ × Session τ}
    (hr : Session.drive fuel B.toStrategy P s = some r) : I r.2.strategy := by
  refine (drive_eq_some_iff.1 ⟨fuel, hr⟩).strategy_induction h.answer ?_
  rw [Program.opening, (settle_framed _ P _ _).strategy]
  exact hs

/-- A round ends in a state of the search, or in a result that tells what its strategy holds. -/
def Minimization.Kept (B : Bisecting τ) (I : τ → Prop) :
    Minimization τ η ⊕ (Except Fault MinimizationReport × τ × η) → Prop
  | .inl m => I m.campaign.strategy
  | .inr (result, s, _) => I s ∧ ∀ report, result = .ok report →
    report.best = (B.transition s).bisection.lastFound ∧ report.searchSteps = B.searchSteps s

theorem Bisecting.Keeps.round (h : B.Keeps I) {m : Minimization τ η} (hm : I m.campaign.strategy)
    {x : Minimization τ η ⊕ (Except Fault MinimizationReport × τ × η)}
    (hx : Minimization.round fuel B P H c m = some x) : Minimization.Kept B I x := by
  unfold Minimization.round at hx
  dsimp only at hx
  split at hx
  · cases hx
    refine ⟨hm, fun report hreport => ?_⟩
    cases hreport
    exact ⟨rfl, rfl⟩
  · obtain ⟨⟨result, s, host⟩, hrun, rfl⟩ := Option.map_eq_some_iff.1 hx
    obtain ⟨r, hr, rfl, -⟩ := Campaign.run_eq_some (Campaign.runOnce_eq_some hrun).1
    have hs := h.drive hm hr
    dsimp only
    split
    · exact ⟨hs, nofun⟩
    · split
      · exact h.prepare _ hs
      · split
        · exact h.update _ _ (h.prepare _ hs)
        · refine ⟨h.update _ _ (h.prepare _ hs), fun report hreport => ?_⟩
          cases hreport
          exact ⟨rfl, rfl⟩

theorem Bisecting.Keeps.goesOn (h : B.Keeps I) {s : τ} (hs : I s) {host : η}
    {m : Minimization τ η} (hm : GoesOn (Minimization.round fuel B P H c)
      (Minimization.opened B s host) m) : I m.campaign.strategy := by
  induction hm with
  | refl => exact h.reset s hs
  | tail _ hround ih => exact h.round ih hround

theorem Bisecting.Keeps.run (h : B.Keeps I) {s s' : τ} (hs : I s) {host host' : η}
    {result : Except Fault MinimizationReport}
    (hrun : Minimization.run fuel B P H c s host = some (result, s', host')) :
    I s' ∧ ∀ report, result = .ok report →
      report.best = (B.transition s').bisection.lastFound ∧
        report.searchSteps = B.searchSteps s' := by
  obtain ⟨x, hends, heq⟩ := Option.map_eq_some_iff.1 hrun
  cases heq
  refine iterate_induction (I := fun m => I m.campaign.strategy)
    (Q := fun x => Minimization.Kept B I (.inr x : Minimization τ η ⊕ _)) hends (h.reset s hs) ?_ ?_
  · intro m m' _ hm hround
    exact h.round hm hround
  · intro m x _ hm hround
    exact h.round hm hround

end Keeping

section Limits

/-- In order and nowhere beyond a limit. -/
structure Bisection.Within (limit : Nat) (b : Bisection) : Prop where
  centred : b.Centred
  right_le : b.right ≤ limit

namespace Bisection

variable {limit length : Nat} {b : Bisection}

theorem Within.update (h : b.Within limit) (found : Bool) : (b.update found).2.Within limit where
  centred := h.centred.update found
  right_le := by
    cases found with
    | true => exact h.centred.bounds.2.1.trans h.right_le
    | false => exact h.right_le

theorem within_closeAt (h : length ≤ limit) (found : Bool) (b : Bisection) :
    (b.closeAt length found).Within limit where
  centred := centred_closeAt length found b
  right_le := h

/-- Only the right one of the two lengths is kept below the end of the trace. -/
theorem within_set (left right length : Nat) (b : Bisection) :
    (b.set left (min right length)).Within (max left length) where
  centred := centred_set _ _ _
  right_le := max_le_max (Nat.le_refl _) (Nat.min_le_right _ _)

/-- As well as the length found last. -/
structure Confined (limit : Nat) (b : Bisection) : Prop extends b.Within limit where
  found_le : ∀ f, b.lastFound = some f → f ≤ limit

theorem Confined.update (h : b.Confined limit) (found : Bool) :
    (b.update found).2.Confined limit where
  toWithin := h.toWithin.update found
  found_le := by
    cases found with
    | true =>
      rintro f ⟨⟩
      exact h.centred.bounds.2.1.trans h.right_le
    | false => exact h.found_le

theorem Confined.closeAt (h : b.Confined limit) (hlength : length ≤ limit) (found : Bool) :
    (b.closeAt length found).Confined limit where
  toWithin := within_closeAt hlength found b
  found_le := by
    cases found with
    | true =>
      rintro f ⟨⟩
      exact hlength
    | false => exact h.found_le

end Bisection

variable {p : Plan} {B : Bisecting p.State} {J : Bisection → Prop} {limit : Nat}

theorem move?_eq_some (hB : p.bisecting? = some B) {call : Call} {move : Bisection.Move}
    (h : p.move? call = some move) :
    (∃ found, move = .update found ∨ move = .closeAt (B.transition p.start).trace.length found) ∨
      ∃ left right, call = .narrow left right := by
  unfold Plan.move? at h
  split at h
  all_goals cases h
  · exact .inl ⟨_, .inl rfl⟩
  · cases hB
    exact .inl ⟨_, .inr rfl⟩
  · exact .inr ⟨_, _, rfl⟩
  · exact .inr ⟨_, _, rfl⟩

/-- Only a call that narrows the bisection sets its interval; any other one keeps what halving and
closing the interval keep. -/
theorem kept_by_call (hB : p.bisecting? = some B)
    (hupdate : ∀ found b, J b → J (b.update found).2)
    (hclose : ∀ found b, J b → J (b.closeAt (B.transition p.start).trace.length found))
    (call : Call) (hcall : ∀ left right, call ≠ .narrow left right) (s : p.State)
    (hs : (B.transition s).trace = (B.transition p.start).trace ∧ J (B.transition s).bisection) :
    (B.transition (p.perform call s)).trace = (B.transition p.start).trace ∧
      J (B.transition (p.perform call s)).bisection := by
  obtain ⟨htrace, hbisection⟩ := transition_perform hB call hs.1
  refine ⟨htrace, ?_⟩
  rw [hbisection]
  cases hmove : p.move? call with
  | none => exact hs.2
  | some move =>
    rcases move?_eq_some hB hmove with ⟨found, rfl | rfl⟩ | ⟨left, right, rfl⟩
    · exact hupdate found _ hs.2
    · exact hclose found _ hs.2
    · exact absurd rfl (hcall left right)

theorem keeps_of_cursor (hB : p.bisecting? = some B)
    (hupdate : ∀ found b, J b → J (b.update found).2)
    (hclose : ∀ found b, J b → J (b.closeAt (B.transition p.start).trace.length found)) :
    B.Keeps fun s => (B.transition s).trace = (B.transition p.start).trace ∧
      J (B.transition s).bisection := by
  have hkept := kept_by_call hB hupdate hclose
  cases p, B, hB using Plan.bisecting_cases with
  | transition trace fair fairBound maxWalks suffix =>
    exact ⟨fun r scene => hkept (.ask r scene) nofun, hkept .prepare nofun, hkept .reset nofun,
      fun found => hkept (.update found) nofun⟩
  | wholeTrace trace fair fairBound maxWalks =>
    exact ⟨fun r scene => hkept (.ask r scene) nofun, hkept .prepare nofun, hkept .reset nofun,
      fun found => hkept (.update found) nofun⟩

theorem transition_narrow (hB : p.bisecting? = some B) (left right : Nat) {s : p.State}
    (hs : (B.transition s).trace = (B.transition p.start).trace) :
    (B.transition (B.narrow left right s)).trace = (B.transition p.start).trace ∧
      (B.transition (B.narrow left right s)).bisection = (B.transition s).bisection.set left
        (min right (B.transition p.start).trace.length) := by
  have hperform := transition_perform hB (.narrow left right) hs
  cases p, B, hB using Plan.bisecting_cases with
  | transition trace fair fairBound maxWalks suffix => exact hperform
  | wholeTrace trace fair fairBound maxWalks => exact hperform

/-- Calls that do not narrow the bisection, after one that does. By induction on them. -/
theorem kept_after_narrow (hB : p.bisecting? = some B)
    (hupdate : ∀ found b, J b → J (b.update found).2)
    (hclose : ∀ found b, J b → J (b.closeAt (B.transition p.start).trace.length found))
    {left right : Nat}
    (hset : ∀ b : Bisection, J (b.set left (min right (B.transition p.start).trace.length)))
    {s : p.State} (hs : (B.transition s).trace = (B.transition p.start).trace) {later : List Call}
    (hlater : ∀ l r, Call.narrow l r ∉ later) :
    J (B.transition (later.foldl (fun s call => p.perform call s)
      (B.narrow left right s))).bisection := by
  refine (List.foldlRecOn (motive := fun s => (B.transition s).trace =
    (B.transition p.start).trace ∧ J (B.transition s).bisection) later _ ?_ ?_).2
  · obtain ⟨htrace, hbisection⟩ := transition_narrow hB left right hs
    exact ⟨htrace, hbisection ▸ hset _⟩
  · intro s hs call hmem
    refine kept_by_call hB hupdate hclose call (fun l r hcall => hlater l r ?_) s hs
    exact hcall ▸ hmem

theorem searchSteps_le (hB : p.bisecting? = some B) {s : p.State}
    (hlength : (B.transition p.start).trace.length ≤ limit)
    (hs : (B.transition s).trace = (B.transition p.start).trace ∧
      (B.transition s).bisection.Within limit) : B.searchSteps s ≤ limit := by
  cases p, B, hB using Plan.bisecting_cases with
  | transition trace fair fairBound maxWalks suffix =>
    exact hs.2.centred.bounds.2.1.trans hs.2.right_le
  | wholeTrace trace fair fairBound maxWalks =>
    show s.trace.length ≤ limit
    rw [show s.trace = trace from hs.1]
    exact hlength

theorem transition_transitionPlan {c : Configuration} {trace : Trace} {fair : Bool}
    {suffix : Option Plan} {B : Bisecting (c.transitionPlan trace fair suffix).State}
    (hB : (c.transitionPlan trace fair suffix).bisecting? = some B) :
    (B.transition (c.transitionPlan trace fair suffix).start).trace = trace := by
  cases suffix <;> cases hB <;> rfl

end Limits

/-- A search ends and leaves its strategy in this state. -/
def Minimization.Leaves {σ τ η : Type} (B : Bisecting τ) (P : Program σ) (H : Host η)
    (c : Configuration) (s s' : τ) : Prop :=
  ∃ fuel host result host', run fuel B P H c s host = some (result, s', host')

/-- A search between two lengths never tries more than the length of the trace, or than its left
bound if this is beyond the trace: not after any later calls on the strategy, and not in any number
of searches made with it one after the other. The interval itself lies within the trace exactly if
its left bound does. -/
theorem narrowed_search_within (c : Configuration) (trace : Trace) (fair : Bool)
    (suffix : Option Plan) {B : Bisecting (c.transitionPlan trace fair suffix).State}
    (hB : (c.transitionPlan trace fair suffix).bisecting? = some B) (left right : Nat) :
    let p := c.transitionPlan trace fair suffix
    let limit := max left trace.length
    (∀ calls, (B.transition (B.narrow left right (p.after calls))).bisection.right ≤ trace.length ↔
      left ≤ trace.length) ∧
    (∀ calls (later : List Call), (∀ l r, .narrow l r ∉ later) →
      let b := (B.transition (later.foldl (fun s call => p.perform call s)
        (B.narrow left right (p.after calls)))).bisection
      b.left ≤ b.current ∧ b.current ≤ b.right ∧ b.right ≤ limit) ∧
    ∀ {σ η : Type} (P : Program σ) (H : Host η) s,
      Relation.ReflTransGen (Minimization.Leaves B P H c) (B.narrow left right p.start) s →
      ∀ fuel host,
        (∀ m, Minimization.Begins fuel B P H c s host m →
          B.searchSteps m.campaign.strategy ≤ limit) ∧
        ∀ report s' host', Minimization.run fuel B P H c s host = some (.ok report, s', host') →
          report.searchSteps ≤ limit ∧ ∀ best, report.best = some best → best ≤ limit := by
  intro p limit
  have htrace : (B.transition p.start).trace = trace := transition_transitionPlan hB
  have hlength : (B.transition p.start).trace.length ≤ limit := by
    rw [htrace]
    exact Nat.le_max_right left trace.length
  have hset : ∀ b : Bisection,
      (b.set left (min right (B.transition p.start).trace.length)).Within limit := by
    rw [htrace]
    exact Bisection.within_set left right trace.length
  refine ⟨fun calls => ?_, fun calls later hlater => ?_, fun P H s hs fuel host => ?_⟩
  · rw [(transition_narrow hB left right (bisection_after hB calls).1).2, htrace]
    show max left (min right trace.length) ≤ trace.length ↔ left ≤ trace.length
    omega
  · have hwithin := kept_after_narrow hB (fun found b hb => hb.update found)
      (fun found b _ => Bisection.within_closeAt hlength found b) hset (bisection_after hB calls).1
      hlater
    obtain ⟨hleft, hright, -, -⟩ := hwithin.centred.bounds
    exact ⟨hleft, hright, hwithin.right_le⟩
  · have hkeeps := keeps_of_cursor (J := Bisection.Confined limit) hB
      (fun found b hb => hb.update found) fun found b hb => hb.closeAt hlength found
    have hsteps : ∀ s, (B.transition s).trace = (B.transition p.start).trace ∧
        (B.transition s).bisection.Confined limit → B.searchSteps s ≤ limit :=
      fun s hs => searchSteps_le hB hlength ⟨hs.1, hs.2.toWithin⟩
    have hconfined : (B.transition s).trace = (B.transition p.start).trace ∧
        (B.transition s).bisection.Confined limit := by
      induction hs with
      | refl =>
        obtain ⟨hsame, hbisection⟩ := transition_narrow hB left right (s := p.start) rfl
        rw [hbisection, bisection_start hB]
        exact ⟨hsame, ⟨hset _, nofun⟩⟩
      | tail _ hrun ih =>
        obtain ⟨_, _, _, _, hrun⟩ := hrun
        exact (hkeeps.run ih hrun).1
    refine ⟨fun m hm => hsteps _ (hkeeps.goesOn hconfined hm.1), fun report s' host' hrun => ?_⟩
    obtain ⟨hs', hreport⟩ := hkeeps.run hconfined hrun
    obtain ⟨hbest, hsearch⟩ := hreport report rfl
    rw [hbest, hsearch]
    exact ⟨hsteps s' hs', hs'.2.found_le⟩

/-- The bounds are given in the wrong order, and the greater one lies beyond the ten steps. -/
theorem narrowed_beyond_trace :
    let B := Forked.bisecting DepthFirst.strategy
    tenSteps.bisecting? = some B ∧ (B.transition tenSteps.start).trace.length = 10 ∧
      (B.transition (B.narrow 50 4 tenSteps.start)).bisection = ⟨4, 50, 27, none⟩ :=
  ⟨rfl, rfl, rfl⟩

/-- The second of two steps is searched, and the failure of the second run is found behind the
first one. -/
theorem narrowed_search_within_secondFails :
    let p := tenRuns.transitionPlan (recorded [⟨1⟩, ⟨1⟩]) true (some (.depthFirst 5))
    let B := Forked.bisecting DepthFirst.strategy
    p.bisecting? = some B ∧
      (B.transition (p.perform (.update true) (B.narrow 1 9 p.start))).bisection.right ≤ 2 ∧
      ∃ report s host, Minimization.run 9 B secondFails quietHost tenRuns (B.narrow 1 9 p.start) () =
        some (.ok report, s, host) ∧ report.best = some 1 ∧ report.searchSteps ≤ 2 := by
  intro p B
  have hB : p.bisecting? = some B := rfl
  obtain ⟨-, hlater, hsearches⟩ := narrowed_search_within tenRuns (recorded [⟨1⟩, ⟨1⟩]) true
    (some (.depthFirst 5)) hB 1 9
  obtain ⟨report, s, host, hrun, -, hbest⟩ := exists_of_convergedBest?
    (show convergedBest? (Minimization.run 9 B secondFails quietHost tenRuns
      (B.narrow 1 9 p.start) ()) = some 1 by decide +kernel)
  have hsteps := ((hsearches secondFails quietHost _ .refl 9 ()).2 report s host hrun).1
  exact ⟨hB, (hlater [] [.update true] (by simp)).2.2, report, s, host, hrun, hbest, hsteps⟩

end Interleave
