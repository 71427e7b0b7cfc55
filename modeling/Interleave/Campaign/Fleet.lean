import Interleave.Campaign
import Interleave.Strategy.Plan

/-!
# Interleave.Campaign.Fleet

The same series shared out among workers. Each worker runs a series of its own, with its own seed
and its share of the iterations; the reports are merged in the order in which the workers finish.
The workers share nothing else.
-/

namespace Interleave
namespace Fleet

/-- No more workers than iterations, unless one iteration goes on until the timeout. -/
def workerCount (c : Configuration) : Nat :=
  if c.untilTimeout then c.workers.toNat else min c.workers.toNat c.iterations.toNat

/-- The iterations of a worker out of `workers`: equal shares, and one more for the first few. -/
def share (c : Configuration) (workers worker : Nat) : Nat :=
  if c.untilTimeout then 1
  else
    c.iterations.toNat / workers + if worker < c.iterations.toNat % workers then 1 else 0

/-- The configuration of a worker: the seeds follow each other. -/
def workerConfiguration (c : Configuration) (seed : UInt64) (workers worker : Nat) :
    Configuration :=
  { c with
    seed := some (seed + UInt64.ofNat worker)
    iterations := UInt64.ofNat (share c workers worker)
    workers := 1 }

def configurations (c : Configuration) (seed : UInt64) : List Configuration :=
  (List.range (workerCount c)).map (workerConfiguration c seed (workerCount c))

def description (c : Configuration) : String :=
  "parallel " ++ toString (workerCount c) ++ " x " ++ c.strategy.name

variable {σ η : Type}

/-- The series of one worker, whose seed is always set. -/
def work (fuel : Nat) (P : Program σ) (H : Host η) (host : η) (c : Configuration) :
    Option (Except Fault Report) :=
  match c.campaignPlan 0 with
  | .error fault => some (.error fault)
  | .ok plan => (Campaign.run fuel plan.strategy P H c plan.start host).map (·.1)

/-- What the workers share: of those that have finished the reports, merged, and the faults with the
numbers of the workers, in the order in which they have finished. -/
structure Ledger where
  report : Report
  faults : List (Nat × Fault)

namespace Ledger

def new (c : Configuration) : Ledger := ⟨.new (description c), []⟩

/-- A worker finishes with a report or a fault. -/
def finish (l : Ledger) (worker : Nat) : Except Fault Report → Ledger
  | .ok report => { l with report := l.report.merge report }
  | .error fault => { l with faults := l.faults ++ [(worker, fault)] }

/-- When all have finished: the fault of the first worker that has one, or else the report. -/
def settle (l : Ledger) : Except Fault Report :=
  match (l.faults.mergeSort fun a b => decide (a.1 ≤ b.1)).head? with
  | some (_, fault) => .error fault
  | none => .ok l.report

end Ledger

/-- What comes of the results of the workers when they finish in the given order. -/
def gather (c : Configuration) (results : List (Except Fault Report)) (order : List Nat) :
    Except Fault Report :=
  (order.foldl (fun (l : Ledger) worker => results[worker]?.elim l (l.finish worker))
    (.new c)).settle

def report? : Except Fault Report → Option Report
  | .error _ => none
  | .ok report => some report

/-- What each worker has visited. -/
def coverages (results : List (Except Fault Report)) : List (Option Coverage) :=
  results.map fun result => (report? result).map (·.coverage)

/-- Run all workers; the result of each, in the order of workers. -/
def run (fuel : Nat) (P : Program σ) (H : Host η) (host : η) (c : Configuration) (drawn : UInt64) :
    Option (List (Except Fault Report)) :=
  (configurations c (c.seed.getD drawn)).mapM (work fuel P H host)

end Fleet
end Interleave
