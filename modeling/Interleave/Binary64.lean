/-!
# Interleave.Binary64

Non-negative double-precision numbers as exact pairs of natural numbers: the quotient nearest to
`n / d` (a tie goes to the even significand), its bit pattern, and its text with one decimal.
Only doubles in the normal range are formed here: numerators and denominators of quotients stay
far below `2 ^ 1022`, and other numbers come from one to the greatest power of ten below
`2 ^ 1024`.
-/

namespace Interleave

/-- The number `significand * 2 ^ up / 2 ^ down`; a nonzero significand has 53 binary digits. -/
structure Binary64 where
  significand : Nat
  up : Nat
  down : Nat
deriving Repr, DecidableEq, Inhabited

/-- The natural number nearest to `n / d`; a tie goes to the even one. -/
def roundHalfEven (n d : Nat) : Nat :=
  let q := n / d
  let r := 2 * (n % d)
  if r < d then q
  else if d < r then q + 1
  else if q % 2 = 0 then q else q + 1

namespace Binary64

def zero : Binary64 := ⟨0, 0, 0⟩

/-- Scale `n / d` by a power of two into `[2 ^ 52, 2 ^ 53)` and round there. -/
def ofRatio (n d : Nat) : Binary64 :=
  if n = 0 ∨ d = 0 then zero else
  -- `n / d` lies strictly between `2 ^ (log n - log d - 1)` and `2 ^ (log n - log d + 1)`
  let shift : Int := (n.log2 : Int) - (d.log2 : Int)
  let exponent : Int :=
    if n <<< (-shift).toNat < d <<< shift.toNat then shift - 53 else shift - 52
  let significand := roundHalfEven (n <<< (-exponent).toNat) (d <<< exponent.toNat)
  if significand = 1 <<< 53 then ⟨1 <<< 52, (exponent + 1).toNat, (-(exponent + 1)).toNat⟩
  else ⟨significand, exponent.toNat, (-exponent).toNat⟩

def ofNat (n : Nat) : Binary64 := ofRatio n 1

/-- The quotient of two doubles, rounded once. -/
def div (a b : Binary64) : Binary64 :=
  ofRatio (a.significand <<< (a.up + b.down)) (b.significand <<< (b.up + a.down))

/-- Whether the product of two doubles rounds to a double; from halfway between the greatest double
and `2 ^ 1024` on it does not. -/
def productFits (a b : Binary64) : Bool :=
  (a.significand <<< a.up) * (b.significand <<< b.up) <
    (1 <<< 1024 - 1 <<< 970) <<< (a.down + b.down)

/-- The interchange format: biased exponent, then the significand without its leading one. -/
def toBits (x : Binary64) : Nat :=
  if x.significand = 0 then 0
  else ((1075 + x.up - x.down) <<< 52) + (x.significand - 1 <<< 52)

/-- The exact value to one decimal, a tie going to the even digit. -/
def toTenths (x : Binary64) : String :=
  let tenths := roundHalfEven ((10 * x.significand) <<< x.up) (1 <<< x.down)
  toString (tenths / 10) ++ "." ++ toString (tenths % 10)

end Binary64
end Interleave
