import Interleave.Configuration
import Interleave.Refusal

/-!
# Interleave.Fault

Why a series of runs cannot be made or is given up.
-/

namespace Interleave

inductive Fault
  | invalidConfiguration (reason : ConfigurationError)
  /-- Replay was asked for where no trace is given. -/
  | replayWithoutTrace
  | diverged (step : Nat) (reason : Mismatch)
deriving DecidableEq, Repr

namespace Fault

def message : Fault → String
  | invalidConfiguration reason => "invalid configuration: " ++ reason.message
  | replayWithoutTrace => "strategy 'replay' requires a schedule trace"
  | diverged step reason => divergenceMessage step reason

end Fault
end Interleave
