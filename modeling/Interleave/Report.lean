import Interleave.Binary64
import Interleave.BugKind
import Interleave.Report.Coverage
import Interleave.SavedTrace

/-!
# Interleave.Report

What the runs of a strategy have shown: how many there were and how long, the bugs with the traces
that lead to them, and the states visited. `merge` joins the reports of separate runs.
-/

namespace Interleave

/-- A bug with the run that showed it. -/
structure Finding where
  kind : BugKind
  message : String
  fair : Bool
  trace : Trace
  narrative : List String
deriving DecidableEq, Repr

/-- The trace of a finding, to be saved. -/
def Finding.savedTrace (f : Finding) : SavedTrace := .ofTrace f.trace f.fair

structure Report where
  strategy : String
  bugFound : Bool
  /-- The message of the first bug. -/
  firstBug : String
  bugs : Nat
  schedules : Nat
  fairSchedules : Nat
  unfairSchedules : Nat
  minSteps : Option Nat
  maxSteps : Nat
  totalSteps : Nat
  bugsByKind : Table BugKind Nat
  findings : List Finding
  coverage : Coverage
  internalErrors : List String

namespace Report

/-- Nothing run yet. -/
def new (strategy : String) : Report where
  strategy
  bugFound := false
  firstBug := ""
  bugs := 0
  schedules := 0
  fairSchedules := 0
  unfairSchedules := 0
  minSteps := none
  maxSteps := 0
  totalSteps := 0
  bugsByKind := ∅
  findings := []
  coverage := .empty
  internalErrors := []

instance : Inhabited Report := ⟨new ""⟩

def recordSchedule (r : Report) (steps : Nat) (fair : Bool) : Report :=
  { r with
    schedules := r.schedules + 1
    fairSchedules := if fair then r.fairSchedules + 1 else r.fairSchedules
    unfairSchedules := if fair then r.unfairSchedules else r.unfairSchedules + 1
    minSteps := some (r.minSteps.elim steps fun least => min least steps)
    maxSteps := max r.maxSteps steps
    totalSteps := r.totalSteps + steps }

def recordFinding (r : Report) (f : Finding) : Report :=
  { r with
    bugFound := true
    firstBug := if r.bugFound then r.firstBug else f.message
    bugs := r.bugs + 1
    bugsByKind := r.bugsByKind.update f.kind fun count => count.getD 0 + 1
    findings := r.findings ++ [f] }

def recordInternalError (r : Report) (message : String) : Report :=
  { r with internalErrors := r.internalErrors ++ [message] }

def recordCoverage (r : Report) (c : Coverage) : Report :=
  { r with coverage := r.coverage.merge c }

/-- The smaller of two numbers, of which either may be missing. -/
def minOption : Option Nat → Option Nat → Option Nat
  | some a, some b => some (min a b)
  | some a, none => some a
  | none, b => b

/-- Both reports as one; what there is only one of is kept from the first that has it. -/
def merge (r s : Report) : Report where
  strategy := if r.strategy.isEmpty then s.strategy else r.strategy
  bugFound := r.bugFound || s.bugFound
  firstBug := if !r.bugFound && s.bugFound then s.firstBug else r.firstBug
  bugs := r.bugs + s.bugs
  schedules := r.schedules + s.schedules
  fairSchedules := r.fairSchedules + s.fairSchedules
  unfairSchedules := r.unfairSchedules + s.unfairSchedules
  minSteps := minOption r.minSteps s.minSteps
  maxSteps := max r.maxSteps s.maxSteps
  totalSteps := r.totalSteps + s.totalSteps
  bugsByKind := Table.merge (· + ·) r.bugsByKind s.bugsByKind
  findings := r.findings ++ s.findings
  coverage := r.coverage.merge s.coverage
  internalErrors := r.internalErrors ++ s.internalErrors

/-- Steps for each schedule, zero where there is none. -/
def average (r : Report) : Binary64 :=
  if r.schedules = 0 then .zero else (Binary64.ofNat r.totalSteps).div (.ofNat r.schedules)

def bugsOf (r : Report) (kind : BugKind) : Nat := (r.bugsByKind.get? kind).getD 0

def bugLines (r : Report) : String :=
  if r.bugFound then
    "Found " ++ toString r.bugs ++ " bug(s): " ++ r.firstBug ++ "\n" ++
      String.join (r.bugsByKind.entries.map fun (kind, count) =>
        "  " ++ toString count ++ " × " ++ kind.text ++ "\n")
  else "No bugs found\n"

/-- The summary for people. -/
def text (r : Report) : String :=
  "Strategy: " ++ r.strategy ++ "\n" ++
    "Explored " ++ toString r.schedules ++ " schedules (" ++ toString r.fairSchedules ++
    " fair, " ++ toString r.unfairSchedules ++ " unfair), " ++ r.average.toTenths ++
    " steps on average\n" ++ r.bugLines ++
    "Covered " ++ toString r.coverage.total ++ " states"

end Report
end Interleave
