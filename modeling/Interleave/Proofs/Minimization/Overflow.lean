import Interleave.Proofs.Minimization.Bounds

/-!
# Interleave.Proofs.Minimization.Overflow

The numbers of a bisection in 64 bits.

* `Bisection.moved?`: the cursor after a history of calls, in 64 bits. `moved?_eq_ok`: where it is
  computed at all, it is the cursor that is meant.
* `Within.update?_found`, `update?_missed`: an update overflows only where no length follows the
  current one; `update?_of_lt`: never in an interval that is not empty.
* `Plan.make_eq_ok`, `make_transitionPlan`: a search is made as it is meant, or its limit overflows.
* `limit_and_cursor_exact`: assembled from these. `limit_overflows` is a search that is not made.
-/

namespace Interleave

namespace Bisection

variable {b : Bisection} {move : Move} {length : Nat} {moves : List Move}

theorem middle?_eq {left right : Nat} (hle : left ≤ right) (hright : right < UInt64.size) :
    middle? left right = .ok (middle left right) := by
  have hmiddle : left + (right - left) / 2 < UInt64.size := by omega
  rw [middle?, Checked.subtract_of_le hle]
  exact Checked.add_of_lt hmiddle

theorem set?_eq {left right : Nat} (hleft : left < UInt64.size) (hright : right < UInt64.size)
    (b : Bisection) : b.set? left right = .ok (b.set left right) := by
  rw [set?, middle?_eq min_le_max (max_lt hleft hright)]
  rfl

/-- A cursor whose lengths are numbers of 64 bits. -/
abbrev Fits (b : Bisection) : Prop := b.Within (UInt64.size - 1)

theorem Within.right_lt (h : b.Fits) : b.right < UInt64.size :=
  Nat.lt_of_le_pred (by decide) h.right_le

theorem Within.update?_found (h : b.Fits) : b.update? true = .ok (b.update true) := by
  have hnext := h.update true
  have hmiddle : middle? b.left b.current = .ok (middle b.left b.current) :=
    middle?_eq hnext.centred.le hnext.right_lt
  simp only [update?, if_true, pure_bind, hmiddle]
  rfl

/-- The length after the current one is computed first, and then all else fits. -/
theorem Within.update?_missed (h : b.Fits) :
    b.update? false = if b.current + 1 < UInt64.size then .ok (b.update false)
      else .error .add := by
  have hnext := h.update false
  have hmiddle : middle? (min (b.current + 1) b.right) b.right =
      .ok (middle (min (b.current + 1) b.right) b.right) :=
    middle?_eq hnext.centred.le hnext.right_lt
  simp only [update?, Bool.false_eq_true, if_false, Checked.add]
  split
  · show (middle? (min (b.current + 1) b.right) b.right >>= _) = _
    rw [hmiddle]
    rfl
  · rfl

/-- In an interval that is not empty a length follows the current one. -/
theorem Within.update?_of_lt (h : b.Fits) (hopen : b.left < b.right) (found : Bool) :
    b.current + 1 < UInt64.size ∧ b.update? found = .ok (b.update found) := by
  have hcurrent := h.centred.bounds.2.2.2 hopen
  have hnext : b.current + 1 < UInt64.size := by
    have hright := h.right_lt
    omega
  cases found with
  | true => exact ⟨hnext, h.update?_found⟩
  | false => exact ⟨hnext, h.update?_missed.trans (if_pos hnext)⟩

theorem Within.update?_eq_ok (h : b.Fits) {found : Bool} {x : Bool × Bisection}
    (hupdate : b.update? found = .ok x) : x = b.update found := by
  cases found with
  | true => exact Except.ok.inj (hupdate.symm.trans h.update?_found)
  | false =>
    rw [h.update?_missed] at hupdate
    split at hupdate
    · exact (Except.ok.inj hupdate).symm
    · cases hupdate

namespace Move

/-- The lengths that a call gives are numbers of 64 bits. -/
def Fits : Move → Prop
  | set left right => left < UInt64.size ∧ right < UInt64.size
  | update _ => True
  | closeAt length _ => length < UInt64.size

/-- The call in 64 bits. -/
def compute? : Move → Bisection → Except Overflow Bisection
  | set left right, b => b.set? left right
  | update found, b => (b.update? found).map Prod.snd
  | closeAt length found, b => .ok (b.closeAt length found)

end Move

/-- The cursor over a trace of `length` steps after a history of calls, in 64 bits. -/
def moved? (length : Nat) (moves : List Move) : Except Overflow Bisection :=
  moves.foldlM (fun b move => move.compute? b) (.new length)

theorem moved?_concat (length : Nat) (moves : List Move) (move : Move) :
    moved? length (moves ++ [move]) = (moved? length moves).bind move.compute? := by
  simp only [moved?, List.foldlM_append, List.foldlM_cons, List.foldlM_nil, bind_pure]
  rfl

theorem Within.computes (h : b.Fits) (hmove : move.Fits) {b' : Bisection}
    (happly : move.compute? b = .ok b') : b' = move.apply b ∧ b'.Fits := by
  cases move with
  | set left right =>
    rw [Move.compute?, set?_eq hmove.1 hmove.2] at happly
    cases happly
    exact ⟨rfl, centred_set left right b, Nat.le_pred_of_lt (max_lt hmove.1 hmove.2)⟩
  | update found =>
    cases hupdate : b.update? found with
    | error overflow => rw [Move.compute?, hupdate] at happly; cases happly
    | ok x =>
      rw [Move.compute?, hupdate] at happly
      cases happly
      rw [h.update?_eq_ok hupdate]
      exact ⟨rfl, h.update found⟩
  | closeAt length found =>
    cases happly
    exact ⟨rfl, within_closeAt (Nat.le_pred_of_lt hmove) found b⟩

/-- By induction on the calls: as long as none of them overflows, each computes what it means. -/
theorem moved?_eq_ok (hlength : length < UInt64.size) (hmoves : ∀ move ∈ moves, move.Fits) :
    ∀ {b : Bisection}, moved? length moves = .ok b → b = moved length moves ∧ b.Fits := by
  induction moves using List.reverseRecOn with
  | nil =>
    intro b h
    cases h
    exact ⟨rfl, centred_new length, Nat.le_pred_of_lt hlength⟩
  | append_singleton moves move ih =>
    intro b' h
    rw [moved?_concat] at h
    cases hmoved : moved? length moves with
    | error overflow => rw [hmoved] at h; cases h
    | ok b =>
      rw [hmoved] at h
      obtain ⟨rfl, hfits⟩ := ih (fun m hm => hmoves m (List.mem_append_left _ hm)) hmoved
      rw [moved_concat]
      exact hfits.computes (hmoves move (by simp)) h

end Bisection

section Limit

theorem Transition.length_le_limitFor (fairBound length : Nat) :
    length ≤ limitFor fairBound length := by
  unfold limitFor
  split <;> omega

/-- Which of the two operations overflows. -/
def Transition.limitOverflow (fairBound length : Nat) : Overflow :=
  if length < fairBound then .add else .multiply

theorem Transition.limit?_eq (fairBound length : Nat) :
    limit? fairBound length = if limitFor fairBound length < UInt64.size then
      .ok (limitFor fairBound length) else .error (limitOverflow fairBound length) := by
  unfold limit? limitFor limitOverflow
  by_cases hlt : length < fairBound
  · simp only [if_pos hlt, Checked.add]
  · simp only [if_neg hlt, Checked.multiply]

/-- A search is made as it is meant, or its limit overflows. -/
theorem Transition.make_eq (trace : Trace) (fair : Bool) (fairBound maxWalks : Nat) :
    make trace fair fairBound maxWalks = if limitFor fairBound trace.length < UInt64.size then
      .ok (.new trace fair fairBound maxWalks)
      else .error (limitOverflow fairBound trace.length) := by
  rw [make, limit?_eq]
  split <;> rfl

/-- A state that is made is the one that is meant. -/
theorem Plan.make_eq_ok : ∀ (p : Plan) {s : p.State}, p.make = .ok s → s = p.start
  | random _ _, _, h => by cases h; rfl
  | depthFirst _, _, h => by cases h; rfl
  | partialOrder _, _, h => by cases h; rfl
  | replay _ _, _, h => by cases h; rfl
  | scripted _, _, h => by cases h; rfl
  | watch seed safetyPrefix threshold base, s, h => by
    cases hbase : base.make with
    | error overflow => rw [make, hbase] at h; cases h
    | ok start =>
      rw [make, hbase] at h
      cases h
      rw [base.make_eq_ok hbase]
      rfl
  | transition trace fair fairBound maxWalks suffix, s, h => by
    cases hsuffix : suffix.make with
    | error overflow => rw [make, hsuffix] at h; cases h
    | ok start =>
      rw [make, hsuffix, Transition.make_eq] at h
      split at h
      · cases h
        rw [suffix.make_eq_ok hsuffix]
        rfl
      · cases h
  | wholeTrace trace fair fairBound maxWalks, s, h => by
    rw [make, Transition.make_eq] at h
    split at h
    · cases h; rfl
    · cases h

/-- A search over a suffix that has been made. -/
theorem Plan.make_transitionPlan (c : Configuration) (trace : Trace) (fair : Bool)
    {suffix : Option Plan} (hsuffix : ∀ q ∈ suffix, ∃ s, q.make = .ok s) :
    (c.transitionPlan trace fair suffix).make =
      if Transition.limitFor c.fairStepBound.toNat trace.length < UInt64.size then
        .ok (c.transitionPlan trace fair suffix).start
      else .error (Transition.limitOverflow c.fairStepBound.toNat trace.length) := by
  cases suffix with
  | none => exact Transition.make_eq _ _ _ _
  | some q =>
    obtain ⟨s, hs⟩ := hsuffix q rfl
    have hstart := q.make_eq_ok hs
    show (q.make >>= fun start => Transition.make trace fair _ _ >>= _) = _
    rw [hs, Transition.make_eq]
    split
    · rw [hstart]; rfl
    · rfl

variable {p : Plan} {B : Bisecting p.State}

theorem stepLimit_perform (hB : p.bisecting? = some B) (call : Call) (s : p.State) :
    (B.transition (p.perform call s)).stepLimit = (B.transition s).stepLimit := by
  cases p, B, hB using Plan.bisecting_cases with
  | transition trace fair fairBound maxWalks suffix =>
    cases call with
    | ask r scene =>
      exact (congrArg Transition.stepLimit (Forked.beginRun_answer suffix.strategy r scene s) :)
    | _ => rfl
  | wholeTrace trace fair fairBound maxWalks =>
    cases call with
    | ask r scene => exact (congrArg Transition.stepLimit (Transition.beginRun_reply r s) :)
    | _ => rfl

theorem stepLimit_after (hB : p.bisecting? = some B) (calls : List Call) :
    (B.transition (p.after calls)).stepLimit = (B.transition p.start).stepLimit := by
  induction calls using List.reverseRecOn with
  | nil => rfl
  | append_singleton calls call ih => rw [Plan.after_concat, stepLimit_perform hB, ih]

theorem atBound_eq (hB : p.bisecting? = some B) (s : p.State) :
    p.strategy.atBound s = decide ((B.transition s).stepLimit < p.strategy.steps s) := by
  cases p, B, hB using Plan.bisecting_cases with
  | transition trace fair fairBound maxWalks suffix => rfl
  | wholeTrace trace fair fairBound maxWalks => rfl

/-- The limit that a search begins with is kept by all calls. -/
theorem atBound_transitionPlan (c : Configuration) (trace : Trace) (fair : Bool)
    (suffix : Option Plan) (calls : List Call) :
    let p := c.transitionPlan trace fair suffix
    p.strategy.atBound (p.after calls) =
      decide (Transition.limitFor c.fairStepBound.toNat trace.length <
        p.strategy.steps (p.after calls)) := by
  cases suffix with
  | none =>
    have hB : (c.transitionPlan trace fair none).bisecting? = some Transition.bisecting := rfl
    exact (atBound_eq hB _).trans (by rw [stepLimit_after hB]; rfl)
  | some suffix =>
    have hB : (c.transitionPlan trace fair (some suffix)).bisecting? =
      some (Forked.bisecting suffix.strategy) := rfl
    exact (atBound_eq hB _).trans (by rw [stepLimit_after hB]; rfl)

/-- Over any suffix that has been made, a search is made just if the limit of its runs fits 64 bits,
and otherwise the operation that was to compute it overflows. The limit is no less than the length
of the trace, so no run is ended while it follows the trace. The cursor, in whatever state calls
leave it, computes all that it computes exactly as long as its interval is not empty. -/
theorem limit_and_cursor_exact (c : Configuration) (trace : Trace) (fair : Bool)
    (suffix : Option Plan) (hsuffix : ∀ q ∈ suffix, ∃ s, q.make = .ok s) :
    let p := c.transitionPlan trace fair suffix
    let limit := Transition.limitFor c.fairStepBound.toNat trace.length
    (limit < 2 ^ 64 → p.make = .ok p.start) ∧
    (2 ^ 64 ≤ limit → p.make =
      .error (if trace.length < c.fairStepBound.toNat then .add else .multiply)) ∧
    trace.length ≤ limit ∧
    (∀ calls, p.strategy.steps (p.after calls) ≤ trace.length →
      p.strategy.atBound (p.after calls) = false) ∧
    ∀ length moves b, length < 2 ^ 64 → (∀ move ∈ moves, Bisection.Move.Fits move) →
      Bisection.moved? length moves = .ok b → b = Bisection.moved length moves ∧
        (b.left < b.right → ∀ found,
          b.current + 1 < 2 ^ 64 ∧ b.update? found = .ok (b.update found)) := by
  intro p limit
  have hmake := Plan.make_transitionPlan c trace fair hsuffix
  have hle : trace.length ≤ limit := Transition.length_le_limitFor _ _
  refine ⟨fun hfits => ?_, fun hover => ?_, hle, fun calls hsteps => ?_,
    fun length moves b hlength hmoves hb => ?_⟩
  · exact hmake.trans (if_pos hfits)
  · exact hmake.trans (if_neg (Nat.not_lt.2 hover))
  · exact (atBound_transitionPlan c trace fair suffix calls).trans
      (decide_eq_false (Nat.not_lt.2 (hsteps.trans hle)))
  · obtain ⟨hmoved, hfits⟩ := Bisection.moved?_eq_ok hlength hmoves hb
    exact ⟨hmoved, hfits.update?_of_lt⟩

abbrev thrice : Trace := recorded [⟨1⟩, ⟨1⟩, ⟨1⟩]

/-- The unit is asked for so many times. -/
def scheduled (times : Nat) : List Call :=
  .replicate times (.ask (.unit [⟨⟨1⟩, .actor, true, none⟩] none) ⟨.empty, [], .empty⟩)

/-- A run may follow all three steps, and a cursor over ten steps may be halved twice. -/
theorem limit_and_cursor_exact_thrice :
    let p := tenRuns.transitionPlan thrice true (some (.depthFirst 5))
    let b := Bisection.moved 10 [.update false]
    p.make = .ok p.start ∧ p.strategy.steps (p.after (scheduled 3)) = 3 ∧
      p.strategy.atBound (p.after (scheduled 3)) = false ∧
      b.update? false = .ok (b.update false) := by
  intro p b
  obtain ⟨hmade, -, -, hbelow, hcursor⟩ := limit_and_cursor_exact tenRuns thrice true
    (some (.depthFirst 5)) (fun q hq => ⟨q.start, by cases hq; rfl⟩)
  have hmoved : Bisection.moved? 10 [.update false] = .ok b := rfl
  have hfits : ∀ move ∈ [Bisection.Move.update false], move.Fits := by
    intro move hmove
    rw [List.mem_singleton.1 hmove]
    trivial
  exact ⟨hmade (by decide), by decide +kernel, hbelow (scheduled 3) (by decide +kernel),
    ((hcursor 10 _ b (by decide) hfits hmoved).2 (by decide) false).2⟩

/-- The greatest bound but two. -/
def boundless : Configuration := { fairStepBound := 18446744073709551613 }

/-- The configuration is accepted, and no search over a trace of three steps is made. -/
theorem limit_overflows :
    boundless.check = .ok () ∧ thrice.length = 3 ∧
      Transition.limitFor boundless.fairStepBound.toNat 3 = 2 ^ 64 ∧
      (boundless.transitionPlan thrice true none).make = .error .add :=
  ⟨rfl, rfl, rfl, rfl⟩

end Limit
end Interleave
