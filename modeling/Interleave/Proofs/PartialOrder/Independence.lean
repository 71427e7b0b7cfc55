import Mathlib.Data.Set.Insert
import Interleave.Proofs.Exchange
import Interleave.Strategy.PartialOrder

/-!
# Interleave.Proofs.PartialOrder.Independence

Steps up to the order of independent ones. A step is told by its unit and the target that the unit
declares; it is independent of a step of another unit that declares another target.

* `Rearranged`: one list of steps from another by exchanging neighbours.
* `influence`: the steps that one of the given steps may have had an effect on.
* `Rearranged.uninfluenced`: whether a unit steps before such an effect has reached it does not
  depend on the order of independent steps.
-/

namespace Interleave

/-- A step as partial-order search sees it: whose it is, and the target that the unit declares. -/
structure Access where
  unit : UnitId
  target : Option UnitId
deriving DecidableEq, Repr

namespace Access

/-- Steps of different units that declare different targets. -/
def Independent (a b : Access) : Prop :=
  a.unit ≠ b.unit ∧ a.target ≠ none ∧ b.target ≠ none ∧ a.target ≠ b.target

theorem Independent.symm {a b : Access} (h : a.Independent b) : b.Independent a :=
  ⟨h.1.symm, h.2.2.1, h.2.1, h.2.2.2.symm⟩

end Access

/-- One list from another by exchanging neighbours that are related. -/
inductive Rearranged {α : Type} (R : α → α → Prop) : List α → List α → Prop where
  | refl (xs : List α) : Rearranged R xs xs
  | cons (x : α) {xs ys : List α} : Rearranged R xs ys → Rearranged R (x :: xs) (x :: ys)
  | swap {x y : α} (xs : List α) : R x y → Rearranged R (x :: y :: xs) (y :: x :: xs)
  | trans {xs ys zs : List α} : Rearranged R xs ys → Rearranged R ys zs → Rearranged R xs zs

namespace Rearranged

variable {α β : Type} {R : α → α → Prop}

/-- An element that is related to all before it can be moved to the front. -/
theorem to_front {x : α} {before : List α} (after : List α) (h : ∀ y ∈ before, R y x) :
    Rearranged R (before ++ x :: after) (x :: (before ++ after)) := by
  induction before with
  | nil => exact .refl _
  | cons y before ih =>
    exact .trans (.cons y (ih fun z hz => h z (List.mem_cons_of_mem _ hz)))
      (.swap _ (h y List.mem_cons_self))

theorem map {S : β → β → Prop} {f : α → β} (hf : ∀ x y, R x y → S (f x) (f y)) {xs ys : List α}
    (h : Rearranged R xs ys) : Rearranged S (xs.map f) (ys.map f) := by
  induction h with
  | refl xs => exact .refl _
  | cons x _ ih => exact .cons _ ih
  | swap xs h => exact .swap _ (hf _ _ h)
  | trans _ _ ih ih' => exact .trans ih ih'

theorem perm {xs ys : List α} (h : Rearranged R xs ys) : xs.Perm ys := by
  induction h with
  | refl xs => exact .refl _
  | cons x _ ih => exact .cons x ih
  | swap xs _ => exact .swap _ _ xs
  | trans _ _ ih ih' => exact ih.trans ih'

/-- Where no elements are related, no other order is reached. -/
theorem eq_of_unrelated {xs ys : List α} (h : Rearranged R xs ys) :
    (∀ x ∈ xs, ∀ y ∈ xs, ¬ R x y) → ys = xs := by
  induction h with
  | refl xs => exact fun _ => rfl
  | cons x _ ih =>
    intro hno
    rw [ih fun y hy z hz => hno y (List.mem_cons_of_mem _ hy) z (List.mem_cons_of_mem _ hz)]
  | swap xs h => intro hno; exact absurd h (hno _ (by simp) _ (by simp))
  | trans _ _ ih ih' =>
    intro hno
    obtain rfl := ih hno
    exact ih' hno

end Rearranged

/-- The steps reached once one more step is made: it is reached from those it is not independent
of. -/
def reach (reached : Set Access) (a : Access) : Set Access :=
  reached ∪ {x | x = a ∧ ∃ d ∈ reached, ¬ d.Independent a}

/-- The steps that given ones reach along a list of steps, with the given ones. -/
def influence (reached : Set Access) : List Access → Set Access
  | [] => reached
  | a :: as => influence (reach reached a) as

theorem reach_comm {reached : Set Access} {a b : Access} (h : a.Independent b) :
    reach (reach reached a) b = reach (reach reached b) a := by
  ext x
  simp only [reach, Set.mem_union, Set.mem_ofPred_eq]
  constructor
  · rintro ((hx | ⟨rfl, d, hd, hda⟩) | ⟨rfl, d, hd | ⟨rfl, _⟩, hdb⟩)
    · exact .inl (.inl hx)
    · exact .inr ⟨rfl, d, .inl hd, hda⟩
    · exact .inl (.inr ⟨rfl, d, hd, hdb⟩)
    · exact absurd h hdb
  · rintro ((hx | ⟨rfl, d, hd, hdb⟩) | ⟨rfl, d, hd | ⟨rfl, _⟩, hda⟩)
    · exact .inl (.inl hx)
    · exact .inr ⟨rfl, d, .inl hd, hdb⟩
    · exact .inl (.inr ⟨rfl, d, hd, hda⟩)
    · exact absurd h.symm hda

theorem influence_append (as bs : List Access) :
    ∀ reached, influence reached (as ++ bs) = influence (influence reached as) bs := by
  induction as with
  | nil => intro reached; rfl
  | cons a as ih => intro reached; exact ih _

theorem influence_concat (reached : Set Access) (as : List Access) (a : Access) :
    influence reached (as ++ [a]) = reach (influence reached as) a :=
  influence_append as [a] reached

theorem subset_influence (as : List Access) : ∀ reached, reached ⊆ influence reached as := by
  induction as with
  | nil => intro reached; exact subset_rfl
  | cons a as ih => intro reached; exact Set.subset_union_left.trans (ih _)

/-- Nothing is reached along steps that are independent of the given one. -/
theorem influence_eq_self {a : Access} {as : List Access} (h : ∀ b ∈ as, a.Independent b) :
    influence {a} as = {a} := by
  induction as with
  | nil => rfl
  | cons b as ih =>
    have hb : reach {a} b = {a} := by
      ext x
      simp only [reach, Set.mem_union, Set.mem_singleton_iff, Set.mem_ofPred_eq, exists_eq_left]
      exact ⟨fun hx => hx.elim id fun hx => absurd (h b List.mem_cons_self) hx.2, .inl⟩
    rw [influence, hb]
    exact ih fun c hc => h c (List.mem_cons_of_mem _ hc)

/-- A step occurs before which its unit has not been reached. -/
def Uninfluenced (reached : Set Access) (b : Access) (as : List Access) : Prop :=
  ∃ before after, as = before ++ b :: after ∧ ∀ d ∈ influence reached before, d.unit ≠ b.unit

theorem uninfluenced_cons {reached : Set Access} {a b : Access} {as : List Access} :
    Uninfluenced reached b (a :: as) ↔
      (a = b ∧ ∀ d ∈ reached, d.unit ≠ b.unit) ∨ Uninfluenced (reach reached a) b as := by
  constructor
  · rintro ⟨before, after, heq, hd⟩
    cases before with
    | nil =>
      cases heq
      exact .inl ⟨rfl, hd⟩
    | cons c before =>
      cases heq
      exact .inr ⟨before, after, rfl, hd⟩
  · rintro (⟨rfl, hd⟩ | ⟨before, after, rfl, hd⟩)
    · exact ⟨[], as, rfl, hd⟩
    · exact ⟨a :: before, after, rfl, hd⟩

theorem Rearranged.uninfluenced {as bs : List Access} {b : Access}
    (h : Rearranged Access.Independent as bs) :
    ∀ {reached : Set Access}, Uninfluenced reached b as → Uninfluenced reached b bs := by
  induction h with
  | refl as => exact fun h => h
  | cons a _ ih =>
    intro reached h
    exact uninfluenced_cons.2 ((uninfluenced_cons.1 h).imp_right ih)
  | @swap x y as hxy =>
    intro reached h
    rcases uninfluenced_cons.1 h with ⟨rfl, hd⟩ | h
    · -- the step comes second now, and the step before it is of another unit
      refine uninfluenced_cons.2 (.inr (uninfluenced_cons.2 (.inl ⟨rfl, fun d hmem => ?_⟩)))
      rcases hmem with hmem | ⟨rfl, _⟩
      · exact hd d hmem
      · exact hxy.1.symm
    · rcases uninfluenced_cons.1 h with ⟨rfl, hd⟩ | h
      · exact uninfluenced_cons.2 (.inl ⟨rfl, fun d hmem => hd d (.inl hmem)⟩)
      · rw [reach_comm hxy] at h
        exact uninfluenced_cons.2 (.inr (uninfluenced_cons.2 (.inr h)))
  | trans _ _ ih ih' => exact fun h => ih' (ih h)

/-- The step that an exchange makes, if it schedules a unit. -/
def Exchange.access? : Exchange → Option Access
  | ⟨.unit candidates _, u⟩ => some ⟨u, PartialOrder.targetOf candidates u⟩
  | ⟨.boolean _, _⟩ => none
  | ⟨.integer _, _⟩ => none

/-- Whether an exchange makes a step is told by its request. -/
theorem access?_eq_none {r : Request} {v w : r.Reply} (h : Exchange.access? ⟨r, v⟩ = none) :
    Exchange.access? ⟨r, w⟩ = none := by
  cases r with
  | unit candidates current => cases h
  | boolean max => rfl
  | integer max => rfl

/-- The steps among exchanges. -/
def accesses (es : List Exchange) : List Access := es.filterMap Exchange.access?

theorem accesses_append (es fs : List Exchange) :
    accesses (es ++ fs) = accesses es ++ accesses fs := List.filterMap_append

end Interleave
