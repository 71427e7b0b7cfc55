import Interleave.Text.Hex

/-!
# Interleave.Strategy.PartialOrder.SlotSet

Sets of slots, the small numbers that stand for units: one bit of a word for each slot.
-/

namespace Interleave

/-- How many units can be told apart. -/
def maxSlots : Nat := 64

structure SlotSet where
  bits : UInt64
deriving DecidableEq, Repr

namespace SlotSet

def empty : SlotSet := ⟨0⟩

def bit (slot : Nat) : UInt64 := 1 <<< UInt64.ofNat slot

/-- A slot past the last one is left out. -/
def insert (s : SlotSet) (slot : Nat) : SlotSet :=
  if slot < maxSlots then ⟨s.bits ||| bit slot⟩ else s

def contains (s : SlotSet) (slot : Nat) : Bool :=
  decide (slot < maxSlots) && s.bits &&& bit slot != 0

def union (s t : SlotSet) : SlotSet := ⟨s.bits ||| t.bits⟩

def difference (s t : SlotSet) : SlotSet := ⟨s.bits &&& ~~~t.bits⟩

/-- How many zeros a number of so many binary digits ends in, from the lowest digit up. -/
def trailingZeros : (digits n : Nat) → Nat
  | 0, _ => 0
  | digits + 1, n => if n % 2 = 1 then 0 else trailingZeros digits (n / 2) + 1

/-- The lowest slot, where the zeros that the word ends in give way to a one. -/
def first? (s : SlotSet) : Option Nat :=
  if s.bits = 0 then none else some (trailingZeros maxSlots s.bits.toNat)

def isEmpty (s : SlotSet) : Bool := s.bits == 0

/-- There is a one in the word for each slot. -/
def size (s : SlotSet) : Nat := s.bits.toBitVec.cpop.toNat

def text (s : SlotSet) : String := "UnitSet(0x" ++ hexText 16 s.bits.toNat ++ ")"

end SlotSet
end Interleave
