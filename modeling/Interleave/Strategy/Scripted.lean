import Interleave.Strategy.Basic

/-!
# Interleave.Strategy.Scripted

A strategy that takes its answers in turn from three lists, whatever is enabled: a fixed adversary
for trying out what stands over a strategy.
-/

namespace Interleave

structure Scripted where
  units : List UnitId
  booleans : List Bool
  integers : List UInt64
  fair : Bool
  bound : Nat
  /-- The answer to `prepare`. -/
  continues : Bool
  steps : Nat
deriving DecidableEq, Repr

namespace Scripted

/-- The item of a list that is read round and round. -/
def inTurn {α : Type} (default : α) (items : List α) (i : Nat) : α :=
  items.getD (i % items.length) default

def count (s : Scripted) : Scripted := { s with steps := s.steps + 1 }

def reply : (r : Request) → Scripted → Except Refusal r.Reply × Scripted
  | .unit candidates _, s =>
    match enabledIds candidates with
    | [] => (.error .noEnabledChoice, s)
    | first :: rest =>
      let units := if s.units.isEmpty then first :: rest else s.units
      (.ok (inTurn first units s.steps), s.count)
  | .boolean _, s => (.ok (inTurn false s.booleans s.steps), s.count)
  | .integer _, s => (.ok (inTurn 0 s.integers s.steps), s.count)

def strategy : Strategy Scripted where
  answer r scene s := .blind scene (reply r s)
  prepare s := (s.continues, { s with steps := 0 })
  reset s := { s with steps := 0 }
  steps s := s.steps
  atBound s := boundReached s.bound s.steps
  isFair s := s.fair
  description _ := "scripted"

end Scripted
end Interleave
