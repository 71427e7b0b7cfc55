import Mathlib.Data.List.Lex
import Interleave.Proofs.ChoiceTree
import Interleave.Strategy.DepthFirst

/-!
# Interleave.Proofs.DepthFirst.Trail

The path that a depth-first search keeps, as a walk down the choice tree. A `Trail` is a list of
branchings that fits the requests met on the way; the branchings say which path was walked.

* `first_le`, `le_last`: below a node, first alternatives lead to the least maximal path, last ones
  to the greatest.
* `moved_le`: the least maximal path through the moved branching is the next one.
-/

namespace Interleave

/-- What depth-first search keeps of a request. -/
def Request.alternatives : Request → Alternatives
  | .unit candidates _ => .units (enabledIds candidates)
  | .boolean _ => .booleans
  | .integer max => .integers (alternativesOf max)

theorem count_alternatives (r : Request) : r.alternatives.count = r.replies.length := by
  cases r <;> simp [Request.alternatives, Alternatives.count, Request.replies]

/-- The path that a list of branchings walks. -/
def takenPath (bs : List Branching) : List Nat := bs.map (·.taken)

@[simp] theorem takenPath_nil : takenPath [] = [] := rfl
@[simp] theorem takenPath_cons (b : Branching) (bs : List Branching) :
    takenPath (b :: bs) = b.taken :: takenPath bs := rfl
@[simp] theorem takenPath_append (bs cs : List Branching) :
    takenPath (bs ++ cs) = takenPath bs ++ takenPath cs := List.map_append

section Walk

variable {σ : Type} {bound : Nat} {P : Program σ}

/-- A walk down the choice tree in which each branching fits the request where it is taken. -/
inductive Trail (bound : Nat) (P : Program σ) :
    Juncture σ Unit → List Branching → Juncture σ Unit → Prop where
  | nil {x : Juncture σ Unit} : Trail bound P x [] x
  | cons {a : Pause σ Unit} {b : Branching} {bs : List Branching} {y : Juncture σ Unit}
      {v : (a.place.request P).Reply} :
      b.alternatives = (a.place.request P).alternatives →
      (a.place.request P).replies[b.taken]? = some v →
      Trail bound P (a.take bound P v) bs y → Trail bound P (.inl a) (b :: bs) y

namespace Trail

theorem follow {x y : Juncture σ Unit} {bs : List Branching} (h : Trail bound P x bs y) :
    x.follow bound P (takenPath bs) = some y := by
  induction h with
  | nil => simp
  | cons _ hv _ ih => rw [takenPath_cons, follow_cons, hv]; exact ih

theorem unique {x y z : Juncture σ Unit} {bs : List Branching} (h : Trail bound P x bs y)
    (h' : Trail bound P x bs z) : y = z :=
  Option.some.inj (h.follow.symm.trans h'.follow)

theorem append {x y z : Juncture σ Unit} {bs cs : List Branching} (h : Trail bound P x bs y)
    (h' : Trail bound P y cs z) : Trail bound P x (bs ++ cs) z := by
  induction h with
  | nil => exact h'
  | cons ha hv _ ih => exact .cons ha hv (ih h')

theorem split {z : Juncture σ Unit} {bs cs : List Branching} :
    ∀ {x : Juncture σ Unit}, Trail bound P x (bs ++ cs) z →
      ∃ y, Trail bound P x bs y ∧ Trail bound P y cs z := by
  induction bs with
  | nil => intro x h; exact ⟨x, .nil, h⟩
  | cons b bs ih =>
    intro x h
    cases h with
    | cons ha hv h =>
      obtain ⟨y, hbs, hcs⟩ := ih h
      exact ⟨y, .cons ha hv hbs, hcs⟩

theorem of_inr {r : Stop σ × Session Unit} {bs : List Branching} {y : Juncture σ Unit}
    (h : Trail bound P (.inr r) bs y) : bs = [] ∧ y = .inr r := by
  cases h
  exact ⟨rfl, rfl⟩

theorem moved {x z : Juncture σ Unit} {b b' : Branching} {bs : List Branching}
    (h : Trail bound P x (b :: bs) z) (hb : b.next? = some b') : ∃ y, Trail bound P x [b'] y := by
  cases h with
  | @cons a b bs z v ha hv _ =>
    unfold Branching.next? at hb
    split at hb
    · rename_i hlt
      cases hb
      rw [ha, count_alternatives] at hlt
      exact ⟨_, .cons ha (List.getElem?_eq_getElem hlt) .nil⟩
    · cases hb

end Trail

theorem follow_inl_eq_inr {a : Pause σ Unit} {path : List Nat} {r : Stop σ × Session Unit}
    (h : Juncture.follow bound P (.inl a) path = some (.inr r)) :
    ∃ i rest v, path = i :: rest ∧ (a.place.request P).replies[i]? = some v ∧
      (a.take bound P v).follow bound P rest = some (.inr r) := by
  cases path with
  | nil => rw [follow_nil] at h; cases h
  | cons i rest =>
    rw [follow_cons] at h
    obtain ⟨v, hv, h⟩ := Option.bind_eq_some_iff.1 h
    exact ⟨i, rest, v, rfl, hv, h⟩

theorem cons_lt_cons_of_lt {i j : Nat} (h : i < j) (p q : List Nat) : i :: p < j :: q :=
  List.cons_lt_cons_iff.2 (.inl h)

theorem first_le {x : Juncture σ Unit} {bs : List Branching} {r : Stop σ × Session Unit}
    (h : Trail bound P x bs (.inr r)) (hfirst : ∀ b ∈ bs, b.taken = 0) :
    ∀ {path : List Nat} {r' : Stop σ × Session Unit},
      x.follow bound P path = some (.inr r') → takenPath bs ≤ path := by
  generalize hy : (Sum.inr r : Juncture σ Unit) = y at h
  induction h with
  | nil =>
    intro path r' h'
    subst hy
    rw [(follow_inr h').1]
    exact le_refl _
  | @cons a b bs y v _ hv _ ih =>
    intro path r' h'
    obtain ⟨i, rest, w, rfl, hw, hrest⟩ := follow_inl_eq_inr h'
    have hb : b.taken = 0 := hfirst b List.mem_cons_self
    rw [takenPath_cons, hb]
    rcases Nat.eq_zero_or_pos i with rfl | hi
    · rw [hb, hw] at hv
      cases hv
      exact List.cons_le_cons _ (ih (fun c hc => hfirst c (List.mem_cons_of_mem _ hc)) hy hrest)
    · exact le_of_lt (cons_lt_cons_of_lt hi _ _)

theorem le_last {x : Juncture σ Unit} {bs : List Branching} {r : Stop σ × Session Unit}
    (h : Trail bound P x bs (.inr r)) (hlast : ∀ b ∈ bs, b.next? = none) :
    ∀ {path : List Nat} {r' : Stop σ × Session Unit},
      x.follow bound P path = some (.inr r') → path ≤ takenPath bs := by
  generalize hy : (Sum.inr r : Juncture σ Unit) = y at h
  induction h with
  | nil =>
    intro path r' h'
    subst hy
    rw [(follow_inr h').1]
    exact le_refl _
  | @cons a b bs y v ha hv _ ih =>
    intro path r' h'
    obtain ⟨i, rest, w, rfl, hw, hrest⟩ := follow_inl_eq_inr h'
    have hb : b.next? = none := hlast b List.mem_cons_self
    have hi : i ≤ b.taken := by
      have hlt := (List.getElem?_eq_some_iff.1 hw).1
      unfold Branching.next? at hb
      rw [ha, count_alternatives] at hb
      split at hb
      · cases hb
      · omega
    rw [takenPath_cons]
    rcases Nat.eq_or_lt_of_le hi with rfl | hi
    · rw [hw] at hv
      cases hv
      exact List.cons_le_cons _ (ih (fun c hc => hlast c (List.mem_cons_of_mem _ hc)) hy hrest)
    · exact le_of_lt (cons_lt_cons_of_lt hi _ _)

/-- Above a branching with last alternatives below it, the least maximal path through the moved
branching comes next. -/
theorem moved_le {x z : Juncture σ Unit} {above below fresh : List Branching} {b b' : Branching}
    {r r₂ : Stop σ × Session Unit} (habove : Trail bound P x above z)
    (hbelow : Trail bound P z (b :: below) (.inr r)) (hlast : ∀ c ∈ below, c.next? = none)
    (hmoved : Trail bound P z (b' :: fresh) (.inr r₂)) (hb : b'.taken = b.taken + 1)
    (hfirst : ∀ c ∈ fresh, c.taken = 0) :
    ∀ {path : List Nat} {r' : Stop σ × Session Unit}, x.follow bound P path = some (.inr r') →
      takenPath (above ++ b :: below) < path → takenPath (above ++ b' :: fresh) ≤ path := by
  induction habove with
  | nil =>
    intro path r' h' hlt
    cases hbelow with
    | @cons a _ _ _ v _ hv hbelow =>
      cases hmoved with
      | @cons _ _ _ _ v' _ hv' hfresh =>
        obtain ⟨i, rest, w, rfl, hw, hrest⟩ := follow_inl_eq_inr h'
        simp only [List.nil_append, takenPath_cons] at hlt ⊢
        rw [hb] at hv' ⊢
        rcases List.cons_lt_cons_iff.1 hlt with hi | ⟨rfl, hbad⟩
        · rcases Nat.eq_or_lt_of_le hi with rfl | hi
          · rw [hw] at hv'
            cases hv'
            exact List.cons_le_cons _ (first_le hfresh hfirst hrest)
          · exact le_of_lt (cons_lt_cons_of_lt hi _ _)
        · rw [hw] at hv
          cases hv
          exact absurd hbad (not_lt_of_ge (le_last hbelow hlast hrest))
  | @cons a c bs y v _ hv _ ih =>
    intro path r' h' hlt
    obtain ⟨i, rest, w, rfl, hw, hrest⟩ := follow_inl_eq_inr h'
    simp only [List.cons_append, takenPath_cons] at hlt ⊢
    rcases List.cons_lt_cons_iff.1 hlt with hi | ⟨rfl, hlt'⟩
    · exact le_of_lt (cons_lt_cons_of_lt hi _ _)
    · rw [hw] at hv
      cases hv
      exact List.cons_le_cons _ (ih hbelow hmoved hrest hlt')

theorem takenPath_lt {above below fresh : List Branching} {b b' : Branching}
    (hb : b'.taken = b.taken + 1) :
    takenPath (above ++ b :: below) < takenPath (above ++ b' :: fresh) := by
  induction above with
  | nil =>
    have hlt : b.taken < b'.taken := by omega
    exact cons_lt_cons_of_lt hlt _ _
  | cons c above ih => exact List.cons_lt_cons_iff.2 (.inr ⟨rfl, ih⟩)

end Walk

end Interleave
