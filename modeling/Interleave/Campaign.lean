import Interleave.Campaign.Host
import Interleave.Fault
import Interleave.Session

/-!
# Interleave.Campaign

A series of runs of a program under one strategy, told in a report. A run that panics is an internal
bug; one that diverges ends the series with a fault. The series also ends when the budget is spent
or the strategy has nothing more to try. The fuel bounds both the number of runs and the number of
rounds of each.
-/

namespace Interleave

namespace Report

/-- Take the outcome of a run into a report; true when it has a bug. A divergence is a fault. -/
def recordOutcome (r : Report) (attachTrace : Bool) (o : Outcome) : Except Fault (Bool × Report) :=
  match o.divergence with
  | some (step, reason) => .error (.diverged step reason)
  | none =>
    let r := (r.recordSchedule o.steps o.fair).recordCoverage o.coverage
    match o.bug with
    | none => .ok (false, r)
    | some bug =>
      .ok (true, r.recordFinding
        { kind := bug.kind
          message := bug.message
          fair := o.fair
          trace := if attachTrace then o.trace else .empty
          narrative := o.narrative })

/-- A run that panicked counts as one without steps. -/
def recordPanic (r : Report) (message : String) (fair : Bool) : Report :=
  ((r.recordSchedule 0 fair).recordInternalError message).recordFinding
    { kind := .internal, message, fair, trace := .empty, narrative := [] }

/-- Take a run into a report; `fair` says whether the strategy is fair now. -/
def recordRun (r : Report) (attachTrace fair : Bool) :
    Except String Outcome → Except Fault (Bool × Report)
  | .ok outcome => r.recordOutcome attachTrace outcome
  | .error message => .ok (true, r.recordPanic message fair)

end Report

/-- A series in progress. -/
structure Campaign (τ η : Type) where
  strategy : τ
  host : η
  report : Report
  completed : Nat

namespace Campaign

variable {σ τ η : Type}

/-- The next run between setup and teardown. -/
def runOnce (fuel : Nat) (S : Strategy τ) (P : Program σ) (H : Host η) (strategy : τ) (host : η) :
    Option (Except String Outcome × τ × η) :=
  (P.run fuel S strategy).map fun (result, strategy) =>
    (result, strategy, H.iterationTeardown (H.setup host))

/-- One more run, or the end of the series. -/
def round (fuel : Nat) (S : Strategy τ) (P : Program σ) (H : Host η) (c : Configuration)
    (k : Campaign τ η) :
    Option (Campaign τ η ⊕ (Except Fault Report × τ × η)) :=
  if (Budget.ofConfiguration c).stops H k.completed k.host then
    some (.inr (.ok k.report, k.strategy, k.host))
  else
    (runOnce fuel S P H k.strategy k.host).map fun (result, strategy, host) =>
      match k.report.recordRun c.attachTraces (S.isFair strategy) result with
      | .error fault => .inr (.error fault, strategy, host)
      | .ok (_, report) =>
        let (continues, strategy) := S.prepare strategy
        if continues then .inl ⟨strategy, host, report, k.completed + 1⟩
        else .inr (.ok report, strategy, host)

/-- Run the series from a strategy that is reset first, and tear down in any case. -/
def run (fuel : Nat) (S : Strategy τ) (P : Program σ) (H : Host η) (c : Configuration)
    (strategy : τ) (host : η) : Option (Except Fault Report × τ × η) :=
  (iterate (round fuel S P H c) fuel
    ⟨S.reset strategy, host, .new (S.description strategy), 0⟩).map
      fun (result, strategy, host) => (result, strategy, H.teardown host)

end Campaign
end Interleave
