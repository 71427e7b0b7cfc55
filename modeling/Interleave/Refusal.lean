import Interleave.Candidate
import Interleave.Heat

/-!
# Interleave.Refusal

Why a strategy gives no answer to a request: there is nothing to choose from, it has no more to
try, the run has left the schedule it should follow, or a liveness bug has been confirmed.
-/

namespace Interleave

/-- How a run leaves the schedule that a strategy follows. -/
inductive Mismatch
  /-- The recorded trace has no step left. -/
  | traceEnded
  | notScheduling
  | notEnabled (id : UnitId)
  | notNondeterministic
  | notBoolean
  | notInteger
  /-- The request differs from the one at this depth of the previous schedule. -/
  | otherRequest
  /-- The enabled units differ from those at this depth of the previous schedule. -/
  | otherUnits
  /-- A reason in the words of whoever gives it. -/
  | stated (reason : String)
deriving DecidableEq, Repr

def Mismatch.message : Mismatch → String
  | traceEnded => "execution is longer than trace"
  | notScheduling => "next step is not a scheduling choice"
  | notEnabled id => "cannot detect enabled unit '" ++ id.text ++ "'"
  | notNondeterministic => "next step is not a nondeterministic choice"
  | notBoolean => "next step is not a nondeterministic boolean choice"
  | notInteger => "next step is not a nondeterministic integer choice"
  | otherRequest => "program made a different choice than in the previous schedule"
  | otherUnits => "enabled units differ from the previous schedule"
  | stated reason => reason

/-- Monitors that stay hot: all along a cycle repeated until the temperature rose so far, or when
the program has come to rest. -/
structure Violation where
  monitors : List String
  temperature : Nat
  cycleLength : Nat
deriving DecidableEq, Repr

namespace Violation

/-- Monitors hot when the program has come to rest: no cycle and no temperature. -/
def atRest (monitors : List String) : Violation := ⟨monitors, 0, 0⟩

def message (v : Violation) : String :=
  "monitor(s) " ++ quotedNames v.monitors ++
    " detected potential liveness bug in hot state (temperature " ++ toString v.temperature ++
    ", cycle of " ++ toString v.cycleLength ++ " steps)"

end Violation

/-- The text of a divergence at a step. -/
def divergenceMessage (step : Nat) (reason : Mismatch) : String :=
  "trace is not reproducible at step " ++ toString step ++ ": " ++ reason.message

inductive Refusal
  | noEnabledChoice
  | exhausted
  | diverged (step : Nat) (reason : Mismatch)
  | liveness (violation : Violation)
deriving DecidableEq, Repr

namespace Refusal

def message : Refusal → String
  | noEnabledChoice => "no enabled schedulable unit"
  | exhausted => "strategy exhausted"
  | diverged step reason => divergenceMessage step reason
  | liveness v => v.message

/-- Such a refusal ends a run in the ordinary way. -/
def isQuiescence : Refusal → Bool
  | noEnabledChoice => true
  | exhausted => true
  | _ => false

end Refusal
end Interleave
