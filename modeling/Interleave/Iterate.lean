/-!
# Interleave.Iterate

Repeating a round until it ends. `iterate` runs with a bound on the number of rounds, `Ends` says
that some number of rounds leads to the result, and `iterate_eq_some_iff` says that they agree.
A round may itself fail to answer (`none`); then so does the repetition.
-/

namespace Interleave

/-- Repeat `round` from `a` for at most the given number of rounds; `none` when that is too few. -/
def iterate {α β : Type} (round : α → Option (α ⊕ β)) : Nat → α → Option β
  | 0, _ => none
  | n + 1, a =>
    match round a with
    | none => none
    | some (.inl a') => iterate round n a'
    | some (.inr b) => some b

/-- Repeating `round` from `a` ends with `b`. -/
inductive Ends {α β : Type} (round : α → Option (α ⊕ β)) : α → β → Prop where
  | last {a : α} {b : β} : round a = some (.inr b) → Ends round a b
  | next {a a' : α} {b : β} : round a = some (.inl a') → Ends round a' b → Ends round a b

theorem ends_of_iterate {α β : Type} {round : α → Option (α ⊕ β)} :
    ∀ (n : Nat) (a : α) (b : β), iterate round n a = some b → Ends round a b := by
  intro n
  induction n with
  | zero => intro a b h; simp [iterate] at h
  | succ n ih =>
    intro a b h
    simp only [iterate] at h
    split at h
    · cases h
    · exact .next ‹_› (ih _ _ h)
    · cases h; exact .last ‹_›

theorem iterate_of_ends {α β : Type} {round : α → Option (α ⊕ β)} {a : α} {b : β}
    (h : Ends round a b) : ∃ n, iterate round n a = some b := by
  induction h with
  | last h => exact ⟨1, by simp [iterate, h]⟩
  | next h _ ih =>
    obtain ⟨n, hn⟩ := ih
    exact ⟨n + 1, by simp [iterate, h, hn]⟩

theorem iterate_eq_some_iff {α β : Type} {round : α → Option (α ⊕ β)} {a : α} {b : β} :
    (∃ n, iterate round n a = some b) ↔ Ends round a b :=
  ⟨fun ⟨n, h⟩ => ends_of_iterate n a b h, iterate_of_ends⟩

/-- What every round keeps holds at the end. -/
theorem Ends.of_invariant {α β : Type} {round : α → Option (α ⊕ β)} {I : α → Prop} {Q : β → Prop}
    {a : α} {b : β} (h : Ends round a b) (ha : I a)
    (hnext : ∀ {a a'}, I a → round a = some (.inl a') → I a')
    (hlast : ∀ {a b}, I a → round a = some (.inr b) → Q b) : Q b := by
  induction h with
  | last h => exact hlast ha h
  | next h _ ih => exact ih (hnext ha h)

/-- More rounds keep a result that was reached. -/
theorem iterate_mono {α β : Type} {round : α → Option (α ⊕ β)} {m n : Nat} {a : α} {b : β}
    (hmn : m ≤ n) (h : iterate round m a = some b) : iterate round n a = some b := by
  induction m generalizing n a with
  | zero => simp [iterate] at h
  | succ m ih =>
    obtain ⟨k, rfl⟩ : ∃ k, n = k + 1 := ⟨n - 1, by omega⟩
    simp only [iterate] at h ⊢
    split at h
    · cases h
    · exact ih (by omega) h
    · exact h

/-- Two repetitions side by side: if each round of one is a round of the other as seen through `f`
and `g`, then so are their results. -/
theorem iterate_map {α α' β β' : Type} {round : α → Option (α ⊕ β)}
    {round' : α' → Option (α' ⊕ β')} {f : α → α'} {g : β → β'} {I : α → Prop} {Q : β → Prop}
    (h : ∀ a, I a → round' (f a) = (round a).map (Sum.map f g) ∧
      ∀ x, round a = some x → Sum.elim I Q x) (n : Nat) :
    ∀ a, I a → iterate round' n (f a) = (iterate round n a).map g ∧
      ∀ b, iterate round n a = some b → Q b := by
  induction n with
  | zero => exact fun a _ => ⟨rfl, nofun⟩
  | succ n ih =>
    intro a ha
    obtain ⟨hround, hkeeps⟩ := h a ha
    rw [iterate, iterate, hround]
    cases hx : round a with
    | none => exact ⟨rfl, nofun⟩
    | some x =>
      cases x with
      | inl a' => exact ih a' (hkeeps _ hx)
      | inr b =>
        refine ⟨rfl, fun b' hb => ?_⟩
        cases hb
        exact hkeeps _ hx

end Interleave
