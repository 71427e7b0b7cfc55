import Interleave.Configuration
import Interleave.Json.Fields
import Interleave.Json.Printer
import Interleave.Json.Reader

/-!
# Interleave.Configuration.Document

Configurations as documents: every field is written, and one that is missing has its default.
-/

namespace Interleave

namespace Duration

def toJson (t : Duration) : Json :=
  .record [("secs", .word t.seconds), ("nanos", .nat t.nanoseconds)]

/-- Nanoseconds of a second and more carry over, as long as the seconds still fit. -/
def ofParts? (seconds nanoseconds : Nat) : Option Duration :=
  let total := seconds + nanoseconds / 1000000000
  if total < UInt64.size then some ⟨UInt64.ofNat total, fraction nanoseconds⟩ else none

def ofJson? (d : Json) : Option Duration :=
  if Json.Fields.onlyKnown ["secs", "nanos"] d then do
    let f ← Json.Fields.of? ["secs", "nanos"] d
    let seconds ← f.required "secs" (·.natBelow? UInt64.size)
    let nanoseconds ← f.required "nanos" (·.natBelow? UInt32.size)
    ofParts? seconds nanoseconds
  else none

end Duration

namespace Configuration

def fieldNames : List String :=
  ["scheduling_iterations", "max_unfair_scheduling_steps", "max_fair_scheduling_steps",
   "liveness_temperature_threshold", "random_seed", "safety_prefix_bound",
   "enable_cycle_detection", "enable_debugging", "timeout", "max_random_walks",
   "parallel_workers", "strategy", "attach_bug_trace"]

def fields (c : Configuration) : List (String × Json) :=
  [("scheduling_iterations", .word c.iterations),
   ("max_unfair_scheduling_steps", .word c.unfairStepBound),
   ("max_fair_scheduling_steps", .word c.fairStepBound),
   ("liveness_temperature_threshold", .word c.temperatureThreshold),
   ("random_seed", .orNull .word c.seed),
   ("safety_prefix_bound", .word c.safetyPrefix),
   ("enable_cycle_detection", .bool c.detectCycles),
   ("enable_debugging", .bool c.debugging),
   ("timeout", .orNull Duration.toJson c.timeout),
   ("max_random_walks", .word c.randomWalks),
   ("parallel_workers", .word c.workers),
   ("strategy", .text c.strategy.name),
   ("attach_bug_trace", .bool c.attachTraces)]

def toJson (c : Configuration) : Json := .record c.fields

/-- The configuration that a document describes, whether or not it makes sense. -/
def ofJson? (d : Json) : Option Configuration := do
  let f ← Json.Fields.of? fieldNames d
  let c : Configuration := {}
  let iterations ← f.withDefault "scheduling_iterations" Json.word? c.iterations
  let unfairStepBound ← f.withDefault "max_unfair_scheduling_steps" Json.word? c.unfairStepBound
  let fairStepBound ← f.withDefault "max_fair_scheduling_steps" Json.word? c.fairStepBound
  let temperatureThreshold ←
    f.withDefault "liveness_temperature_threshold" Json.word? c.temperatureThreshold
  let seed ← f.withDefault "random_seed" (·.nullable? Json.word?) c.seed
  let safetyPrefix ← f.withDefault "safety_prefix_bound" Json.word? c.safetyPrefix
  let detectCycles ← f.withDefault "enable_cycle_detection" Json.bool? c.detectCycles
  let debugging ← f.withDefault "enable_debugging" Json.bool? c.debugging
  let timeout ← f.withDefault "timeout" (·.nullable? Duration.ofJson?) c.timeout
  let randomWalks ← f.withDefault "max_random_walks" Json.word? c.randomWalks
  let workers ← f.withDefault "parallel_workers" Json.word? c.workers
  let strategy ←
    f.withDefault "strategy" (fun d => d.alternative?.bind StrategyKind.ofName?) c.strategy
  let attachTraces ← f.withDefault "attach_bug_trace" Json.bool? c.attachTraces
  pure { iterations, unfairStepBound, fairStepBound, temperatureThreshold, seed, safetyPrefix,
         detectCycles, debugging, timeout, randomWalks, workers, strategy, attachTraces }

/-- Read a configuration and check it. -/
def read (s : String) : Except ConfigurationError Configuration :=
  match (Json.read? s).bind ofJson? with
  | none => .error .malformed
  | some c => c.check.map fun _ => c

def write (c : Configuration) : String := c.toJson.pretty

end Configuration
end Interleave
