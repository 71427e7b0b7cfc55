import Interleave.State.Notice
import Interleave.Strategy.Basic

/-!
# Interleave.Program

Programs under test. A `Handler` is a piece of a program as the scheduler sees it: what it asks,
checks and tells, in the order in which it does so, and how it ends. Its branches are the answers,
so that it stands for any code that makes finitely many calls. A question or check in a run that
has been halted is answered with the halt, which the code may pass on or ignore.
-/

namespace Interleave

/-- A choice that code leaves to the scheduler. -/
inductive Question
  | boolean (max : UInt64)
  /-- A choice between two values that a fair run makes both ways. -/
  | fairBoolean (id : String)
  | integer (max : UInt64)
deriving DecidableEq, Repr

namespace Question

/-- The request that is made of the strategy. -/
@[reducible] def request : Question → Request
  | boolean max => .boolean max
  | fairBoolean _ => .boolean 2
  | integer max => .integer max

/-- The choice that is recorded for a reply. -/
def choice : (q : Question) → q.request.Reply → Choice
  | boolean _, value => .boolean value
  | fairBoolean id, value => .fairBoolean id value
  | integer _, value => .integer value

end Question

/-- Code over a state, as the scheduler sees it. -/
inductive Handler (σ : Type) where
  /-- It ends in the ordinary way. -/
  | finish (state : σ)
  /-- It ends because the run has been halted, or says so. -/
  | abort (state : σ)
  | panic (message : String)
  /-- The reply is missing when the run has been halted. -/
  | ask (question : Question) (next : Option question.request.Reply → Handler σ)
  /-- The next part is told whether the run goes on. -/
  | check (holds : Bool) (message : String) (next : Bool → Handler σ)
  | tell (notice : Notice) (next : Handler σ)

/-- A program: its state when fresh, what it does to start and when a unit is scheduled, and what
can be seen of it. -/
structure Program (σ : Type) where
  fresh : σ
  start : σ → Handler σ
  /-- All units, enabled or not. -/
  units : σ → List Candidate
  /-- The unit that runs, where the program knows it. -/
  current : σ → Option Candidate
  execute : UnitId → σ → Handler σ
  hotMonitors : σ → List String
  label : σ → UnitId → String

end Interleave
