import Interleave.Random.Source
import Interleave.Strategy.Basic

/-!
# Interleave.Strategy.Random

Every alternative is drawn from a seeded source. The source goes on from run to run, also after a
reset, so that no two runs need be alike.
-/

namespace Interleave

structure RandomWalk where
  seed : UInt64
  bound : Nat
  source : Source
  steps : Nat
deriving DecidableEq

namespace RandomWalk

def new (seed : UInt64) (bound : Nat) : RandomWalk := ⟨seed, bound, .ofSeed seed, 0⟩

/-- Draw a number under `n` and count a step. -/
def draw (n : Nat) (s : RandomWalk) : Nat × RandomWalk :=
  let (value, source) := s.source.below n
  (value, { s with source, steps := s.steps + 1 })

def reply : (r : Request) → RandomWalk → Except Refusal r.Reply × RandomWalk
  | .unit candidates _, s =>
    match enabledIds candidates with
    | [] => (.error .noEnabledChoice, s)
    | first :: rest =>
      let (i, s) := s.draw (rest.length + 1)
      (.ok ((first :: rest).getD i first), s)
  | .boolean max, s =>
    let (value, s) := s.draw (alternativesOf max).toNat
    (.ok (value == 0), s)
  | .integer max, s =>
    let (value, s) := s.draw (alternativesOf max).toNat
    (.ok (UInt64.ofNat value), s)

def strategy : Strategy RandomWalk where
  answer r scene s := .blind scene (reply r s)
  prepare s := (true, { s with steps := 0 })
  reset s := { s with steps := 0 }
  steps s := s.steps
  atBound s := boundReached s.bound s.steps
  isFair _ := true
  description s := "random (seed " ++ toString s.seed.toNat ++ ")"

end RandomWalk
end Interleave
