import Interleave.Strategy.PartialOrder.SlotSet

/-!
# Interleave.Strategy.PartialOrder.Clock

Vector clocks: how many steps of each slot lie at or before a point of a run. A slot that the list
does not reach has had none.
-/

namespace Interleave

structure Clock where
  ticks : List UInt32
deriving Repr

namespace Clock

def zero : Clock := ⟨[]⟩

instance : Inhabited Clock := ⟨zero⟩

def get (c : Clock) (slot : Nat) : UInt32 := c.ticks.getD slot 0

/-- The largest count is not passed. -/
def increase (n : UInt32) : UInt32 := if n = 0xffffffff then n else n + 1

def tickAt : Nat → List UInt32 → List UInt32
  | 0, [] => [1]
  | 0, n :: rest => increase n :: rest
  | slot + 1, [] => 0 :: tickAt slot []
  | slot + 1, n :: rest => n :: tickAt slot rest

/-- One more step of a slot; a slot past the last one has none. -/
def tick (c : Clock) (slot : Nat) : Clock :=
  if slot < maxSlots then ⟨tickAt slot c.ticks⟩ else c

def mergeTicks : List UInt32 → List UInt32 → List UInt32
  | [], ns => ns
  | ms, [] => ms
  | m :: ms, n :: ns => max m n :: mergeTicks ms ns

/-- The later of the two counts of each slot. -/
def merge (c d : Clock) : Clock := ⟨mergeTicks c.ticks d.ticks⟩

def ticksLe : List UInt32 → List UInt32 → Bool
  | [], _ => true
  | m :: ms, [] => m == 0 && ticksLe ms []
  | m :: ms, n :: ns => decide (m ≤ n) && ticksLe ms ns

/-- No slot is further on in the first clock than in the second. -/
def dominatedBy (c d : Clock) : Bool := ticksLe c.ticks d.ticks

/-- The same counts for each slot. -/
def same (c d : Clock) : Bool := c.dominatedBy d && d.dominatedBy c

def happensBefore (c d : Clock) : Bool := c.dominatedBy d && !d.dominatedBy c

def concurrent (c d : Clock) : Bool := !c.happensBefore d && !d.happensBefore c

/-- The counts up to the last one that is not zero. -/
def text (c : Clock) : String :=
  let used := (c.ticks.reverse.dropWhile (· == 0)).reverse
  "VC[" ++ ", ".intercalate (used.map fun n => toString n.toNat) ++ "]"

end Clock
end Interleave
