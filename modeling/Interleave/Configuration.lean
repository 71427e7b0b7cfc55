/-!
# Interleave.Configuration

What a run is asked to do: how many schedules, within which step bounds, with which strategy and
which liveness check. `check` says which of these make no sense together.
-/

namespace Interleave

/-- A span of time to the nanosecond. -/
structure Duration where
  seconds : UInt64
  nanoseconds : Fin 1000000000
deriving DecidableEq, Repr

namespace Duration

def zero : Duration := ⟨0, 0⟩

/-- What so many nanoseconds are beside whole seconds. -/
def fraction (nanoseconds : Nat) : Fin 1000000000 := Fin.ofNat _ nanoseconds

/-- Whole milliseconds. -/
def ofMilliseconds (n : UInt64) : Duration := ⟨n / 1000, fraction ((n % 1000).toNat * 1000000)⟩

def le (a b : Duration) : Bool :=
  a.seconds < b.seconds || (a.seconds == b.seconds && a.nanoseconds ≤ b.nanoseconds)

end Duration

inductive StrategyKind
  | random
  | depthFirst
  | partialOrder
  | replay
deriving DecidableEq, Repr

namespace StrategyKind

def name : StrategyKind → String
  | random => "random"
  | depthFirst => "dfs"
  | partialOrder => "dpor"
  | replay => "replay"

def ofName? : String → Option StrategyKind
  | "random" => some random
  | "dfs" => some depthFirst
  | "dpor" => some partialOrder
  | "replay" => some replay
  | _ => none

end StrategyKind

structure Configuration where
  iterations : UInt64 := 1
  unfairStepBound : UInt64 := 10000
  fairStepBound : UInt64 := 100000
  /-- How hot a cycle may get; zero leaves it to the length of the cycle. -/
  temperatureThreshold : UInt64 := 0
  seed : Option UInt64 := none
  /-- How many steps pass before states are looked at. -/
  safetyPrefix : UInt64 := 0
  detectCycles : Bool := false
  debugging : Bool := false
  timeout : Option Duration := none
  randomWalks : UInt64 := 5
  workers : UInt64 := 1
  strategy : StrategyKind := .random
  attachTraces : Bool := true
deriving DecidableEq, Repr

instance : Inhabited Configuration := ⟨{}⟩

/-- What is wrong with a configuration. -/
inductive ConfigurationError
  | noIterations
  | noStepBound
  | noRandomWalks
  | noWorkers
  /-- The text is not the document of a configuration. -/
  | malformed
deriving DecidableEq, Repr

def ConfigurationError.message : ConfigurationError → String
  | noIterations => "scheduling_iterations must be at least 1"
  | noStepBound => "at least one scheduling step bound must be non-zero"
  | noRandomWalks => "max_random_walks must be at least 1"
  | noWorkers => "parallel_workers must be at least 1"
  | malformed => "malformed document"

namespace Configuration

/-- The first thing that is wrong, if anything is. -/
def check (c : Configuration) : Except ConfigurationError Unit :=
  if c.iterations = 0 then .error .noIterations
  else if c.unfairStepBound = 0 ∧ c.fairStepBound = 0 then .error .noStepBound
  else if c.randomWalks = 0 then .error .noRandomWalks
  else if c.workers = 0 then .error .noWorkers
  else .ok ()

def stepBound (c : Configuration) (fair : Bool) : Nat :=
  if fair then c.fairStepBound.toNat else c.unfairStepBound.toNat

/-- A single iteration with a timeout goes on until the time is over. -/
def untilTimeout (c : Configuration) : Bool := c.iterations == 1 && c.timeout.isSome

end Configuration
end Interleave
