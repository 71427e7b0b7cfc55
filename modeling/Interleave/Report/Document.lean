import Interleave.Report

/-!
# Interleave.Report.Document

Reports as documents. Tables are written as objects with their keys in order, sets as arrays in
order; when a text repeats a key, the last value counts.
-/

namespace Interleave

namespace StatesByName

def toJson (t : StatesByName) : Json :=
  .record (t.entries.map fun (name, states) => (name, .strings states.toList))

def ofJson? (d : Json) : Option StatesByName := do
  let entries ← d.entries? (·.list? Json.text?)
  pure (entries.foldl (fun t (name, states) => t.insert name (Collection.ofList states)) ∅)

end StatesByName

namespace Coverage

def toJson (c : Coverage) : Json :=
  .record [("machine_states", c.machines.toJson), ("monitor_states", c.monitors.toJson)]

def ofJson? (d : Json) : Option Coverage := do
  let f ← Json.Fields.of? ["machine_states", "monitor_states"] d
  let machines ← f.required "machine_states" StatesByName.ofJson?
  let monitors ← f.required "monitor_states" StatesByName.ofJson?
  pure ⟨machines, monitors⟩

end Coverage

namespace Finding

def toJson (b : Finding) : Json :=
  .record [("kind", .text b.kind.name), ("message", .text b.message), ("is_fair", .bool b.fair),
    ("steps", b.trace.toJson), ("narrative", .strings b.narrative)]

/-- A finding stands in an array in a report. -/
def ofJson? (d : Json) : Option Finding := do
  let f ← Json.Fields.of? ["kind", "message", "is_fair", "steps", "narrative"] d
  let kind ← f.required "kind" fun d => d.alternative?.bind BugKind.ofName?
  let message ← f.required "message" Json.text?
  let fair ← f.required "is_fair" Json.bool?
  let trace ← f.required "steps" (Trace.ofJson? 3)
  let narrative ← f.required "narrative" (·.list? Json.text?)
  pure ⟨kind, message, fair, trace, narrative⟩

end Finding

namespace Report

def bugsByKindToJson (t : Table BugKind Nat) : Json :=
  .record (t.entries.map fun (kind, count) => (kind.name, .nat count))

def bugsByKindOfJson? (d : Json) : Option (Table BugKind Nat) := do
  let entries ← d.entries? Json.count?
  let entries ← entries.mapM fun (name, count) =>
    (BugKind.ofName? name).map fun kind => (kind, count)
  pure (entries.foldl (fun t (kind, count) => t.insert kind count) ∅)

def fieldNames : List String :=
  ["strategy", "bug_found", "bug_report", "num_of_found_bugs", "explored_schedules_count",
   "num_of_explored_fair_schedules", "num_of_explored_unfair_schedules", "min_explored_steps",
   "max_explored_steps", "total_explored_steps", "bug_kinds", "bug_traces", "coverage",
   "internal_errors"]

/-- The fields of a report, in order. -/
def fields (r : Report) : List (String × Json) :=
  [("strategy", .text r.strategy), ("bug_found", .bool r.bugFound),
   ("bug_report", .text r.firstBug), ("num_of_found_bugs", .nat r.bugs),
   ("explored_schedules_count", .nat r.schedules),
   ("num_of_explored_fair_schedules", .nat r.fairSchedules),
   ("num_of_explored_unfair_schedules", .nat r.unfairSchedules),
   ("min_explored_steps", .orNull .nat r.minSteps), ("max_explored_steps", .nat r.maxSteps),
   ("total_explored_steps", .nat r.totalSteps), ("bug_kinds", bugsByKindToJson r.bugsByKind),
   ("bug_traces", .array (r.findings.map Finding.toJson)), ("coverage", r.coverage.toJson),
   ("internal_errors", .strings r.internalErrors)]

def toJson (r : Report) : Json := .record r.fields

def ofJson? (d : Json) : Option Report := do
  let f ← Json.Fields.of? fieldNames d
  let strategy ← f.required "strategy" Json.text?
  let bugFound ← f.required "bug_found" Json.bool?
  let firstBug ← f.required "bug_report" Json.text?
  let bugs ← f.required "num_of_found_bugs" Json.count?
  let schedules ← f.required "explored_schedules_count" Json.count?
  let fairSchedules ← f.required "num_of_explored_fair_schedules" Json.count?
  let unfairSchedules ← f.required "num_of_explored_unfair_schedules" Json.count?
  let minSteps ← f.optional "min_explored_steps" Json.count?
  let maxSteps ← f.required "max_explored_steps" Json.count?
  let totalSteps ← f.required "total_explored_steps" Json.count?
  let bugsByKind ← f.required "bug_kinds" bugsByKindOfJson?
  let findings ← f.required "bug_traces" (·.list? Finding.ofJson?)
  let coverage ← f.required "coverage" Coverage.ofJson?
  let internalErrors ← f.required "internal_errors" (·.list? Json.text?)
  pure { strategy, bugFound, firstBug, bugs, schedules, fairSchedules, unfairSchedules, minSteps,
         maxSteps, totalSteps, bugsByKind, findings, coverage, internalErrors }

def read? (s : String) : Option Report := (Json.read? s).bind ofJson?

end Report
end Interleave
