import Interleave.Binary64
import Interleave.Json.Basic

/-!
# Interleave.Json.Buffered

A value that has to be held before it is known what it is must be readable in full, also where it
is then ignored: its strings denote texts, its numbers can be read as doubles, and it does not nest
too deep.
-/

namespace Interleave

namespace Number

/-- The leading digits that fit a word, and the power of ten that stands for the place of the last
of them. -/
def leading (digits : Nat) (exponent : Int) : Nat × Int :=
  if digits < UInt64.size then (digits, exponent) else leading (digits / 10) (exponent + 1)
termination_by digits
decreasing_by simp only [UInt64.size] at *; omega

/-- A decimal is read by its leading digits. They and the power of ten are rounded to doubles, and
so is the product of the two, which must not be too large for one; a quotient never is. The last
rounding is of rounded factors, so that a decimal just below the greatest double can be refused. -/
def isReadableDecimal (digits : Nat) (exponent : Int) : Bool :=
  let (significand, exponent) := leading digits exponent
  if significand = 0 ∨ exponent < 0 then true
  else if 308 < exponent then false
  else (Binary64.ofNat significand).productFits (.ofNat (Nat.pow 10 exponent.toNat))

/-- Whether a number can be read as a double, or is a word to begin with. -/
def isReadable : Number → Bool
  | unsigned n => isReadableDecimal n 0
  | negative n => isReadableDecimal n 0
  | decimal _ digits exponent => isReadableDecimal digits exponent

end Number

namespace Json

mutual

/-- Readable with at most the given number of levels of arrays and objects. -/
def isReadable (levels : Nat) : Json → Bool
  | null => true
  | bool _ => true
  | number n => n.isReadable
  | string c => c.isSome
  | array items => 0 < levels && areReadable (levels - 1) items
  | object fields => 0 < levels && areReadableFields (levels - 1) fields

def areReadable (levels : Nat) : List Json → Bool
  | [] => true
  | item :: rest => item.isReadable levels && areReadable levels rest

def areReadableFields (levels : Nat) : List (Content × Json) → Bool
  | [] => true
  | field :: rest => isReadableField levels field && areReadableFields levels rest

def isReadableField (levels : Nat) : Content × Json → Bool
  | (key, value) => key.isSome && isReadable levels value

end

end Json
end Interleave
