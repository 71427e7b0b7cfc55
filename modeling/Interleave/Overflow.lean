/-!
# Interleave.Overflow

Arithmetic on numbers of 64 bits. A result that 64 bits cannot hold is an error.
-/

namespace Interleave

/-- The operation whose result does not fit. -/
inductive Overflow
  | add
  | subtract
  | multiply
deriving DecidableEq, Repr

def Overflow.message : Overflow → String
  | add => "attempt to add with overflow"
  | subtract => "attempt to subtract with overflow"
  | multiply => "attempt to multiply with overflow"

namespace Checked

def add (a b : Nat) : Except Overflow Nat :=
  if a + b < UInt64.size then .ok (a + b) else .error .add

def subtract (a b : Nat) : Except Overflow Nat :=
  if b ≤ a then .ok (a - b) else .error .subtract

def multiply (a b : Nat) : Except Overflow Nat :=
  if a * b < UInt64.size then .ok (a * b) else .error .multiply

variable {a b : Nat}

theorem add_of_lt (h : a + b < UInt64.size) : add a b = .ok (a + b) := if_pos h

theorem subtract_of_le (h : b ≤ a) : subtract a b = .ok (a - b) := if_pos h

end Checked
end Interleave
