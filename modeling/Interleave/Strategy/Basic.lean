import Interleave.Refusal
import Interleave.State.Observer
import Interleave.Trace

/-!
# Interleave.Strategy.Basic

What a program leaves open and who decides it. A `Request` asks for a unit to schedule, a boolean
or an integer; a `Strategy` answers requests with a state of its own, which it opens again for the
next run (`prepare`) or for a new series of runs (`reset`). It sees the `Scene`: the trace so far,
the units of the last scheduling point and the observer, of which it may take snapshots.
-/

namespace Interleave

inductive Request
  | unit (candidates : List Candidate) (current : Option Candidate)
  | boolean (max : UInt64)
  | integer (max : UInt64)
deriving DecidableEq, Repr

/-- What an answer to a request is. -/
@[reducible] def Request.Reply : Request → Type
  | .unit _ _ => UnitId
  | .boolean _ => Bool
  | .integer _ => UInt64

/-- The reply that a recorded choice gives to a request: a unit only where it is enabled now. A
fair boolean serves like any other. -/
def Request.accept? : (r : Request) → Choice → Option r.Reply
  | .unit candidates _, c =>
    c.unit?.bind fun u => if u ∈ enabledIds candidates then some u else none
  | .boolean _, c => c.boolean?
  | .integer _, c => c.integer?

/-- Whether a request asks for a unit where none is enabled. -/
def Request.nothingEnabled : Request → Bool
  | .unit candidates _ => (enabledIds candidates).isEmpty
  | _ => false

/-- The number of alternatives of an integer request, which is never zero. -/
def alternativesOf (max : UInt64) : UInt64 := if max = 0 then 1 else max

/-- What a strategy may look at. -/
structure Scene where
  trace : Trace
  /-- The units at the last scheduling point. -/
  units : List Candidate
  observer : Observer

def Scene.empty : Scene := ⟨.empty, [], .empty⟩

/-- What a strategy makes of a request: its result, its next state, and the observer. -/
structure Answer (σ : Type) (α : Type) where
  result : Except Refusal α
  state : σ
  observer : Observer

structure Strategy (σ : Type) where
  answer : (r : Request) → Scene → σ → Answer σ r.Reply
  /-- Close the run; false when there is nothing more to try. -/
  prepare : σ → Bool × σ
  /-- Start over. -/
  reset : σ → σ
  /-- The steps decided in this run. -/
  steps : σ → Nat
  /-- Whether the run has got as long as it may. -/
  atBound : σ → Bool
  isFair : σ → Bool
  description : σ → String

/-- Whether so many steps reach a bound; zero is no bound. -/
def boundReached (bound steps : Nat) : Bool := bound != 0 && decide (bound ≤ steps)

/-- The answer of a strategy that does not look at the scene. -/
def Answer.blind {σ α : Type} (scene : Scene) (outcome : Except Refusal α × σ) : Answer σ α :=
  ⟨outcome.1, outcome.2, scene.observer⟩

/-- What a strategy that stands over another one does with a request: answer it, refuse it, or
leave it to the other. -/
inductive Verdict (α : Type)
  | reply (value : α)
  | refuse (refusal : Refusal)
  | forward

end Interleave
