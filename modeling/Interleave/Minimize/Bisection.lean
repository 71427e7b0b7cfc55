import Interleave.Json.Basic
import Interleave.Overflow

/-!
# Interleave.Minimize.Bisection

The search for the shortest part of a trace that still shows a bug: an interval of lengths, of
which the middle one is tried next. A length that shows the bug becomes the end of the interval, one
that does not lies before its start. `set` and `update` are the moves as they are meant, `set?` and
`update?` as they are computed, in 64 bits.
-/

namespace Interleave

structure Bisection where
  left : Nat
  right : Nat
  current : Nat
  /-- The length that showed the bug last. -/
  lastFound : Option Nat
deriving DecidableEq, Repr

namespace Bisection

def middle (left right : Nat) : Nat := left + (right - left) / 2

/-- All lengths of a trace of `length` steps. -/
def new (length : Nat) : Bisection := ⟨0, length, length / 2, none⟩

/-- The interval between two ends, given in either order. -/
def set (left right : Nat) (b : Bisection) : Bisection :=
  { b with
    left := min left right
    right := max left right
    current := middle (min left right) (max left right) }

/-- Half the interval by what the current length has shown; true while it is not empty. -/
def update (found : Bool) (b : Bisection) : Bool × Bisection :=
  let left := if found then b.left else min (b.current + 1) b.right
  let right := if found then b.current else b.right
  (decide (left < right),
   ⟨left, right, middle left right, if found then some b.current else b.lastFound⟩)

/-- End the search at one length. -/
def closeAt (length : Nat) (found : Bool) (b : Bisection) : Bisection :=
  ⟨length, length, length, if found then some length else b.lastFound⟩

/-- The middle, in 64 bits. -/
def middle? (left right : Nat) : Except Overflow Nat := do
  let gap ← Checked.subtract right left
  Checked.add left (gap / 2)

/-- `set` in 64 bits. -/
def set? (left right : Nat) (b : Bisection) : Except Overflow Bisection := do
  let current ← middle? (min left right) (max left right)
  pure { b with left := min left right, right := max left right, current }

/-- `update` in 64 bits. -/
def update? (found : Bool) (b : Bisection) : Except Overflow (Bool × Bisection) := do
  let left ← if found then pure b.left else
    let next ← Checked.add b.current 1
    pure (min next b.right)
  let right := if found then b.current else b.right
  let current ← middle? left right
  pure (decide (left < right),
    ⟨left, right, current, if found then some b.current else b.lastFound⟩)

def isConverged (b : Bisection) : Bool := decide (b.right ≤ b.left)

/-- How many lengths are tried when exactly those from `critical` on show the bug, and how the
search ends; at most `rounds` of them. -/
def searchFor (critical : Nat) : Nat → Bisection → Nat × Bisection
  | 0, b => (0, b)
  | rounds + 1, b =>
    match b.update (decide (critical ≤ b.current)) with
    | (false, b) => (1, b)
    | (true, b) =>
      let (n, b) := searchFor critical rounds b
      (n + 1, b)

def toJson (b : Bisection) : Json :=
  .record [("left", .nat b.left), ("right", .nat b.right), ("current", .nat b.current),
    ("last_found", .orNull .nat b.lastFound)]

end Bisection
end Interleave
