/-!
# Interleave.Strategy.Backtrack

Backtracking over a path: drop the deepest choices that have no alternative left and move the
deepest other one to its next alternative.
-/

namespace Interleave

/-- The path, deepest choice first, that follows the given one; empty when there is none. -/
def backtrack {α : Type} (next? : α → Option α) : List α → List α
  | [] => []
  | a :: above =>
    match next? a with
    | some a' => a' :: above
    | none => backtrack next? above

/-- Backtracking finds nothing to move on, or drops the elements that cannot be moved and moves
the next one. -/
theorem backtrack_eq {α : Type} (next? : α → Option α) (path : List α) :
    (backtrack next? path = [] ∧ ∀ a ∈ path, next? a = none) ∨
    ∃ below a a' above, path = below ++ a :: above ∧ (∀ c ∈ below, next? c = none) ∧
      next? a = some a' ∧ backtrack next? path = a' :: above := by
  induction path with
  | nil => exact .inl ⟨rfl, by simp⟩
  | cons a above ih =>
    cases ha : next? a with
    | some a' => exact .inr ⟨[], a, a', above, rfl, by simp, ha, by simp [backtrack, ha]⟩
    | none =>
      have hstep : backtrack next? (a :: above) = backtrack next? above := by simp [backtrack, ha]
      rw [hstep]
      rcases ih with ⟨hnil, hall⟩ | ⟨below, c, c', above', rfl, hbelow, hc, hback⟩
      · exact .inl ⟨hnil, by simpa [ha] using hall⟩
      · exact .inr ⟨a :: below, c, c', above', rfl, by simpa [ha] using hbelow, hc, hback⟩

/-- What holds of a path, and is kept where a choice is moved on, holds of the path that follows. -/
theorem forall_mem_backtrack {α : Type} {next? : α → Option α} {Q : α → Prop} {path : List α}
    (h : ∀ a ∈ path, Q a) (hnext : ∀ a a', Q a → next? a = some a' → Q a') :
    ∀ a ∈ backtrack next? path, Q a := by
  rcases backtrack_eq next? path with ⟨hnil, _⟩ | ⟨below, b, b', above, rfl, _, hb, hback⟩
  · simp [hnil]
  · rw [hback]
    intro a ha
    rcases List.mem_cons.1 ha with rfl | ha
    · exact hnext b _ (h b (by simp)) hb
    · exact h a (by simp [ha])

end Interleave
