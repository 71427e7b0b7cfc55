import Mathlib.Data.Finset.Card
import Mathlib.Data.Finset.Range
import Mathlib.Data.Finset.SDiff
import Mathlib.Data.Nat.Bitwise
import Mathlib.Order.Bounds.Basic
import Interleave.Strategy.PartialOrder.SlotSet

/-!
# Interleave.Proofs.PartialOrder.SlotSet

Words as finite sets of slots. A slot is in the set when its bit is set, so that two sets with the
same slots are the same word; slots that have no bit are in none.

* `contains_insert`, `contains_union`, `contains_difference`, `ext_contains`: the operations, slot
  by slot.
* `first?_eq_some_iff`, `size_eq_card`: the zeros that a word ends in stand before its least slot,
  and its ones are as many as its slots.
* `words_refine_sets`: sets of slots made by any moves are the finite sets of numbers that the same
  moves make, as far as these have a slot.
-/

namespace Interleave
namespace SlotSet

/-! ### Slots and bits -/

theorem toBitVec_bit {slot : Nat} (h : slot < maxSlots) :
    (bit slot).toBitVec = BitVec.twoPow 64 slot := by
  unfold maxSlots at h
  apply BitVec.eq_of_toNat_eq
  simp [bit, Nat.mod_eq_of_lt h, Nat.shiftLeft_eq]

theorem contains_iff (s : SlotSet) (slot : Nat) :
    s.contains slot = true ↔ slot < maxSlots ∧ s.bits.toBitVec.getLsbD slot = true := by
  simp only [contains, Bool.and_eq_true, decide_eq_true_eq, bne_iff_ne]
  refine and_congr_right fun h => ?_
  have hlt : slot < 64 := h
  rw [Ne, ← UInt64.toBitVec_inj, UInt64.toBitVec_and, toBitVec_bit h, BitVec.and_twoPow]
  split
  · rename_i hbit
    refine iff_of_true (fun hzero => ?_) hbit
    have hone : (BitVec.twoPow 64 slot).getLsbD slot = true := by simp [hlt]
    rw [hzero] at hone
    simp at hone
  · rename_i hbit
    exact iff_of_false (fun hne => hne rfl) hbit

@[simp] theorem contains_empty (slot : Nat) : empty.contains slot = false := by
  simp [contains, empty]

theorem contains_insert {s : SlotSet} {slot other : Nat} :
    (s.insert slot).contains other = true ↔
      s.contains other = true ∨ other = slot ∧ slot < maxSlots := by
  unfold insert
  split
  · rename_i h
    rw [contains_iff, contains_iff]
    simp only [UInt64.toBitVec_or, BitVec.getLsbD_or, toBitVec_bit h, BitVec.getLsbD_twoPow,
      Bool.or_eq_true, Bool.and_eq_true, decide_eq_true_eq]
    unfold maxSlots at h ⊢
    constructor
    · rintro ⟨hother, hbit | ⟨_, rfl⟩⟩
      · exact .inl ⟨hother, hbit⟩
      · exact .inr ⟨rfl, h⟩
    · rintro (⟨hother, hbit⟩ | ⟨rfl, _⟩)
      · exact ⟨hother, .inl hbit⟩
      · exact ⟨h, .inr ⟨h, rfl⟩⟩
  · rename_i h
    simp [h]

theorem contains_union {s t : SlotSet} {slot : Nat} :
    (s.union t).contains slot = true ↔ s.contains slot = true ∨ t.contains slot = true := by
  simp only [contains_iff, union, UInt64.toBitVec_or, BitVec.getLsbD_or, Bool.or_eq_true,
    and_or_left]

theorem contains_difference {s t : SlotSet} {slot : Nat} :
    (s.difference t).contains slot = true ↔
      s.contains slot = true ∧ t.contains slot = false := by
  rw [← Bool.not_eq_true, contains_iff, contains_iff, contains_iff]
  simp only [difference, UInt64.toBitVec_and, UInt64.toBitVec_not, BitVec.getLsbD_and,
    BitVec.getLsbD_not, Bool.and_eq_true, Bool.not_eq_true', decide_eq_true_eq]
  constructor
  · rintro ⟨hslot, hs, _, ht⟩
    exact ⟨⟨hslot, hs⟩, fun h => by rw [ht] at h; exact absurd h.2 (by decide)⟩
  · rintro ⟨⟨hslot, hs⟩, ht⟩
    exact ⟨hslot, hs, hslot, by simpa [hslot] using ht⟩

theorem ext_contains {s t : SlotSet} (h : ∀ slot, s.contains slot = true ↔ t.contains slot = true) :
    s = t := by
  suffices hbits : s.bits.toBitVec = t.bits.toBitVec by
    obtain ⟨⟨s⟩⟩ := s
    obtain ⟨⟨t⟩⟩ := t
    cases hbits
    rfl
  refine BitVec.eq_of_getLsbD_eq fun slot hslot => ?_
  have hslot' : slot < maxSlots := hslot
  have hiff := h slot
  rw [contains_iff, contains_iff] at hiff
  rw [Bool.eq_iff_iff]
  exact ⟨fun hs => (hiff.1 ⟨hslot', hs⟩).2, fun ht => (hiff.2 ⟨hslot', ht⟩).2⟩

/-! ### The slots of a word -/

/-- The slots that a word has a bit for. -/
def members (s : SlotSet) : Finset Nat :=
  (Finset.range maxSlots).filter fun slot => s.contains slot = true

theorem mem_members {s : SlotSet} {slot : Nat} : slot ∈ s.members ↔ s.contains slot = true := by
  rw [members, Finset.mem_filter, Finset.mem_range]
  exact and_iff_right_of_imp fun h => ((contains_iff s slot).1 h).1

theorem members_inj {s t : SlotSet} : s.members = t.members ↔ s = t := by
  refine ⟨fun h => ext_contains fun slot => ?_, congrArg members⟩
  rw [← mem_members, h, mem_members]

@[simp] theorem members_empty : empty.members = ∅ := by
  ext slot
  simp [mem_members]

theorem members_eq_empty_iff {s : SlotSet} : s.members = ∅ ↔ s.bits = 0 := by
  rw [← members_empty, members_inj]
  exact ⟨congrArg bits, congrArg mk⟩

theorem members_difference (s t : SlotSet) : (s.difference t).members = s.members \ t.members := by
  ext slot
  rw [mem_members, contains_difference, Finset.mem_sdiff, mem_members, mem_members,
    Bool.not_eq_true]

theorem isEmpty_iff {s : SlotSet} : s.isEmpty = true ↔ s.members = ∅ :=
  beq_iff_eq.trans members_eq_empty_iff.symm

/-- The zeros that a number ends in give way to a one. -/
theorem testBit_trailingZeros (digits : Nat) : ∀ {n : Nat}, n ≠ 0 → n < 2 ^ digits →
    trailingZeros digits n < digits ∧ n.testBit (trailingZeros digits n) = true ∧
      ∀ i < trailingZeros digits n, n.testBit i = false := by
  induction digits with
  | zero => intro n hn hlt; omega
  | succ digits ih =>
    intro n hn hlt
    unfold trailingZeros
    split
    case isTrue hodd => exact ⟨Nat.succ_pos _, by simpa using hodd, nofun⟩
    case isFalse heven =>
      obtain ⟨hplace, hone, hzeros⟩ := ih (n := n / 2) (by omega) (by omega)
      refine ⟨Nat.succ_lt_succ hplace, by rwa [Nat.testBit_succ], fun i hi => ?_⟩
      cases i with
      | zero => simpa using heven
      | succ i => rw [Nat.testBit_succ]; exact hzeros i (Nat.lt_of_succ_lt_succ hi)

theorem isLeast_trailingZeros {s : SlotSet} (h : s.bits ≠ 0) :
    IsLeast (s.members : Set Nat) (trailingZeros maxSlots s.bits.toNat) := by
  have hne : s.bits.toNat ≠ 0 := fun hzero => h (UInt64.toNat_inj.1 hzero)
  obtain ⟨hlt, hone, hzeros⟩ := testBit_trailingZeros maxSlots hne s.bits.toNat_lt
  refine ⟨mem_members.2 ((contains_iff s _).2 ⟨hlt, hone⟩), fun slot hslot => ?_⟩
  by_contra hbelow
  have hbit : s.bits.toNat.testBit slot = true :=
    ((contains_iff s slot).1 (mem_members.1 hslot)).2
  rw [hzeros slot (Nat.lt_of_not_le hbelow)] at hbit
  cases hbit

theorem first?_eq_some_iff {s : SlotSet} {slot : Nat} :
    s.first? = some slot ↔ IsLeast (s.members : Set Nat) slot := by
  unfold first?
  split
  case isTrue hzero =>
    rw [members_eq_empty_iff.2 hzero]
    exact iff_of_false nofun fun h => absurd h.1 (by simp)
  case isFalse hbits =>
    have hleast := isLeast_trailingZeros hbits
    exact ⟨fun h => Option.some.inj h ▸ hleast, fun h => congrArg some (hleast.unique h)⟩

theorem first?_eq_none_iff {s : SlotSet} : s.first? = none ↔ s.members = ∅ := by
  rw [members_eq_empty_iff, first?]
  split
  case isTrue hzero => exact iff_of_true rfl hzero
  case isFalse hbits => exact iff_of_false nofun hbits

theorem contains_of_first? {s : SlotSet} {slot : Nat} (h : s.first? = some slot) :
    s.contains slot = true :=
  mem_members.1 (first?_eq_some_iff.1 h).1

theorem first?_eq_none {s : SlotSet} (h : s.first? = none) (slot : Nat) :
    s.contains slot = false := by
  rw [← Bool.not_eq_true, ← mem_members, first?_eq_none_iff.1 h]
  exact Finset.notMem_empty slot

theorem first?_isSome {s : SlotSet} {slot : Nat} (h : s.contains slot = true) :
    ∃ first, s.first? = some first := by
  refine Option.ne_none_iff_exists'.1 fun hnone => ?_
  rw [first?_eq_none hnone] at h
  cases h

theorem cpopNatRec_eq_card {w : Nat} (x : BitVec w) (n : Nat) :
    x.cpopNatRec n 0 = ((Finset.range n).filter fun i => x.getLsbD i = true).card := by
  induction n with
  | zero => rfl
  | succ n ih =>
    rw [BitVec.cpopNatRec_succ, BitVec.cpopNatRec_eq, ih, Finset.range_add_one,
      Finset.filter_insert]
    split
    case isTrue hone => rw [Finset.card_insert_of_notMem (by simp), hone]; rfl
    case isFalse hzero => rw [Bool.eq_false_of_not_eq_true hzero]; rfl

theorem size_eq_card (s : SlotSet) : s.size = s.members.card := by
  rw [size, BitVec.toNat_cpop, cpopNatRec_eq_card, members]
  refine congrArg Finset.card (Finset.filter_congr fun slot hslot => ?_)
  have hlt : slot < maxSlots := Finset.mem_range.1 hslot
  rw [contains_iff, and_iff_right hlt]

/-- To insert the least slot of a difference on the right is to take it out of the difference. -/
theorem difference_insert_ssubset {s t : SlotSet} {slot : Nat}
    (h : (s.difference t).first? = some slot) :
    (s.difference (t.insert slot)).members ⊂ (s.difference t).members := by
  have hslot := contains_of_first? h
  have hlt : slot < maxSlots := ((contains_iff _ _).1 hslot).1
  refine Finset.ssubset_iff_of_subset ?_ |>.2 ⟨slot, mem_members.2 hslot, fun hin => ?_⟩
  · intro other hother
    rw [mem_members, contains_difference, ← Bool.not_eq_true, contains_insert] at hother
    rw [mem_members, contains_difference, ← Bool.not_eq_true]
    exact ⟨hother.1, fun ht => hother.2 (.inl ht)⟩
  · rw [mem_members, contains_difference, ← Bool.not_eq_true, contains_insert] at hin
    exact hin.2 (.inr ⟨rfl, hlt⟩)

/-! ### Sets made by moves -/

/-- What is done to one of a row of sets. -/
inductive Move
  | put (place n : Nat)
  /-- Add all that another set of the row has. -/
  | unite (place other : Nat)
  /-- Make it what one set of the row has and another has not. -/
  | subtract (place left right : Nat)
deriving DecidableEq, Repr

namespace Move

def onWords (row : Nat → SlotSet) : Move → Nat → SlotSet
  | put place n => Function.update row place ((row place).insert n)
  | unite place other => Function.update row place ((row place).union (row other))
  | subtract place left right => Function.update row place ((row left).difference (row right))

/-- The same on finite sets of numbers, which have room for all of them. -/
def onSets (row : Nat → Finset Nat) : Move → Nat → Finset Nat
  | put place n => Function.update row place (row place ∪ {n})
  | unite place other => Function.update row place (row place ∪ row other)
  | subtract place left right => Function.update row place (row left \ row right)

end Move

/-- The row of sets that moves make of empty ones. -/
def words (moves : List Move) : Nat → SlotSet := moves.foldl Move.onWords fun _ => empty

/-- The numbers with a slot in the row of finite sets that moves make of empty ones. -/
def sets (moves : List Move) (i : Nat) : Finset Nat :=
  (moves.foldl Move.onSets (fun _ => ∅) i).filter (· < maxSlots)

/-- Each word of a row has the numbers with a slot in the set at its place. -/
def Refines (words : Nat → SlotSet) (sets : Nat → Finset Nat) : Prop :=
  ∀ i n, (words i).contains n = true ↔ n ∈ sets i ∧ n < maxSlots

theorem Refines.update {words : Nat → SlotSet} {sets : Nat → Finset Nat} (h : Refines words sets)
    {place : Nat} {word : SlotSet} {set : Finset Nat}
    (hplace : ∀ n, word.contains n = true ↔ n ∈ set ∧ n < maxSlots) :
    Refines (Function.update words place word) (Function.update sets place set) := by
  intro i n
  by_cases hi : i = place
  · subst hi
    rw [Function.update_self, Function.update_self]
    exact hplace n
  · rw [Function.update_of_ne hi, Function.update_of_ne hi]
    exact h i n

theorem Refines.move {words : Nat → SlotSet} {sets : Nat → Finset Nat} (h : Refines words sets)
    (m : Move) : Refines (m.onWords words) (m.onSets sets) := by
  cases m with
  | put place slot =>
    refine h.update fun n => ?_
    rw [contains_insert, h, Finset.mem_union, Finset.mem_singleton, or_and_right]
    exact or_congr_right (and_congr_right fun heq => by rw [heq])
  | unite place other =>
    refine h.update fun n => ?_
    rw [contains_union, h, h, Finset.mem_union, or_and_right]
  | subtract place left right =>
    refine h.update fun n => ?_
    rw [contains_difference, ← Bool.not_eq_true, h, h, Finset.mem_sdiff]
    tauto

theorem Refines.moves (moves : List Move) {words : Nat → SlotSet} {sets : Nat → Finset Nat}
    (h : Refines words sets) :
    Refines (moves.foldl Move.onWords words) (moves.foldl Move.onSets sets) := by
  induction moves generalizing words sets with
  | nil => exact h
  | cons m moves ih => exact ih (h.move m)

theorem members_words (moves : List Move) (i : Nat) : (words moves i).members = sets moves i := by
  have hempty : Refines (fun _ => empty) fun _ => ∅ := fun i n => by simp
  ext n
  rw [mem_members, sets, Finset.mem_filter]
  exact hempty.moves moves i n

/-- Whatever is inserted, united and subtracted, each query on a word is the one on its set: which
numbers it has, whether it has any, how many, which is the least, and whether two sets are the same.
So the least number of a difference is one of the left set and none of the right one, and once
inserted there it leaves the difference, which gains nothing. -/
theorem words_refine_sets (moves : List Move) (i j : Nat) :
    (∀ n, (words moves i).contains n = true ↔ n ∈ sets moves i) ∧
    ((words moves i).isEmpty = true ↔ sets moves i = ∅) ∧
    (words moves i).size = (sets moves i).card ∧
    (∀ n, (words moves i).first? = some n ↔ IsLeast (sets moves i : Set Nat) n) ∧
    ((words moves i).first? = none ↔ sets moves i = ∅) ∧
    (words moves i = words moves j ↔ sets moves i = sets moves j) ∧
    ∀ n, ((words moves i).difference (words moves j)).first? = some n →
      n ∈ sets moves i ∧ n ∉ sets moves j ∧
      ((words moves i).difference ((words moves j).insert n)).members ⊂
        ((words moves i).difference (words moves j)).members := by
  simp only [← members_words]
  refine ⟨fun n => mem_members.symm, isEmpty_iff, size_eq_card _, fun n => first?_eq_some_iff,
    first?_eq_none_iff, members_inj.symm, fun n hn => ?_⟩
  have hmem : n ∈ (words moves i).members \ (words moves j).members := by
    rw [← members_difference]
    exact (first?_eq_some_iff.1 hn).1
  obtain ⟨hleft, hright⟩ := Finset.mem_sdiff.1 hmem
  exact ⟨hleft, hright, difference_insert_ssubset hn⟩

/-- The last number that is put in the first set is past all slots. -/
def overfull : List Move := [.put 0 5, .put 1 3, .unite 0 1, .put 0 64]

theorem overfull_refined :
    ((words overfull 0).difference (words overfull 1)).first? = some 5 ∧
    5 ∈ sets overfull 0 ∧ 5 ∉ sets overfull 1 ∧ (sets overfull 0).card = 2 := by
  have hfirst : ((words overfull 0).difference (words overfull 1)).first? = some 5 := by decide
  have htwo : (words overfull 0).size = 2 := by decide
  obtain ⟨_, _, hsize, _, _, _, hdifference⟩ := words_refine_sets overfull 0 1
  obtain ⟨hleft, hright, _⟩ := hdifference 5 hfirst
  exact ⟨hfirst, hleft, hright, hsize.symm.trans htwo⟩

end SlotSet
end Interleave
