import Interleave.Strategy.Backtrack
import Interleave.Strategy.Basic

/-!
# Interleave.Strategy.DepthFirst

Every schedule of a program, one run after the other, in the order of the alternatives. A run
follows the path left by the run before and goes on with first alternatives; then the deepest
choice with an alternative left is moved on and all below it is forgotten.
-/

namespace Interleave

/-- The alternatives of a request. -/
inductive Alternatives
  | units (ids : List UnitId)
  | booleans
  | integers (max : UInt64)
deriving DecidableEq, Repr

def Alternatives.count : Alternatives → Nat
  | units ids => ids.length
  | booleans => 2
  | integers max => max.toNat

/-- A choice on the path: its alternatives and which of them is taken. -/
structure Branching where
  alternatives : Alternatives
  taken : Nat
deriving DecidableEq, Repr

def Branching.next? (b : Branching) : Option Branching :=
  if b.taken + 1 < b.alternatives.count then some { b with taken := b.taken + 1 } else none

structure DepthFirst where
  bound : Nat
  /-- The choices made in this run, the deepest first. -/
  passed : List Branching
  /-- The choices of the path that this run has still to follow. -/
  ahead : List Branching
  /-- How many choices this run has made. -/
  depth : Nat
  /-- How many runs are closed. -/
  explored : Nat
deriving DecidableEq, Repr

namespace DepthFirst

def new (bound : Nat) : DepthFirst := ⟨bound, [], [], 0, 0⟩

def pass (b : Branching) (ahead : List Branching) (s : DepthFirst) : DepthFirst :=
  { s with passed := b :: s.passed, ahead, depth := s.depth + 1 }

/-- Which alternative is taken here: the one on the path, or the first beyond its end. -/
def visit (alternatives : Alternatives) (s : DepthFirst) : Except Refusal Nat × DepthFirst :=
  match s.ahead with
  | [] => (.ok 0, s.pass ⟨alternatives, 0⟩ [])
  | b :: ahead =>
    if b.alternatives = alternatives then (.ok b.taken, s.pass b ahead)
    else (.error (.diverged s.depth .otherRequest), s)

def reply : (r : Request) → DepthFirst → Except Refusal r.Reply × DepthFirst
  | .unit candidates _, s =>
    match enabledIds candidates with
    | [] => (.error .noEnabledChoice, s)
    | first :: rest =>
      let (taken, s) := s.visit (.units (first :: rest))
      (taken.map fun i => (first :: rest).getD i first, s)
  | .boolean _, s =>
    let (taken, s) := s.visit .booleans
    (taken.map fun i => i == 1, s)
  | .integer max, s =>
    let (taken, s) := s.visit (.integers (alternativesOf max))
    (taken.map UInt64.ofNat, s)

def prepare (s : DepthFirst) : Bool × DepthFirst :=
  let path := backtrack Branching.next? s.passed
  (!path.isEmpty,
   { s with passed := [], ahead := path.reverse, depth := 0, explored := s.explored + 1 })

def strategy : Strategy DepthFirst where
  answer r scene s := .blind scene (reply r s)
  prepare := prepare
  reset s := new s.bound
  steps s := s.depth
  atBound s := boundReached s.bound s.depth
  isFair _ := false
  description _ := "dfs"

end DepthFirst
end Interleave
