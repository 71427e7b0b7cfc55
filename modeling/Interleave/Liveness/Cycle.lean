import Interleave.State.Observer
import Interleave.Trace

/-!
# Interleave.Liveness.Cycle

A stretch of a trace that leads from a state back to one with the same fingerprint. It stands for
an infinite run that a fair scheduler allows when it schedules every unit that is enabled in it,
and only those, and when each fair choice in it goes both ways. A monitor that is hot in all of its
states is never satisfied in that run.
-/

namespace Interleave

/-- A step of a cycle with the state that it reached. -/
structure CycleStep where
  index : Nat
  choice : Choice
  state : Snapshot

abbrev Cycle := List CycleStep

namespace Cycle

/-- The steps of a trace from `start` on whose state is known. -/
def collect (trace : Trace) (observer : Observer) (start : Nat) : Cycle :=
  (List.range' start (trace.length - start)).filterMap fun index => do
    let choice ← trace.get? index
    let state ← observer.snapshotAt? index
    pure ⟨index, choice, state⟩

/-- The steps of a trace from its first on with the states they reached, as far as both go. -/
def ofStates (trace : Trace) (states : List Snapshot) : Cycle :=
  (trace.toList.zip states).mapIdx fun index (choice, state) => ⟨index, choice, state⟩

/-- The units enabled somewhere in the cycle. -/
def enabledUnits (c : Cycle) : Collection UnitId :=
  c.foldl (fun units step => units.union step.state.enabled) ∅

/-- The units that the cycle schedules. -/
def scheduledUnits (c : Cycle) : Collection UnitId :=
  .ofList (c.filterMap fun step => step.choice.unit?)

def isSchedulingFair (c : Cycle) : Bool :=
  c.enabledUnits.toList == c.scheduledUnits.toList

/-- Whether a fair choice takes a value somewhere in the cycle. -/
def takes (c : Cycle) (id : String) (value : Bool) : Bool :=
  c.any fun step => step.choice == .fairBoolean id value

def isChoiceFair (c : Cycle) : Bool :=
  c.all fun step =>
    match step.choice with
    | .fairBoolean id value => c.takes id !value
    | _ => true

def isFair (c : Cycle) : Bool := c.isSchedulingFair && c.isChoiceFair

/-- The monitors hot in every state of the cycle, in order of names. -/
def hotMonitors : Cycle → List String
  | [] => []
  | first :: rest =>
    (first.state.monitors.entries.filterMap fun (name, heat) =>
      if heat.isHot then some name else none).filter fun name =>
        (first :: rest).all fun step => (step.state.heatOf name).isHot

/-- Whether a state of the cycle has a fingerprint. -/
def visits (c : Cycle) (fingerprint : UInt64) : Bool :=
  c.any fun step => step.state.fingerprint == fingerprint

/-- The least step number in the cycle, zero if it is empty. -/
def start (c : Cycle) : Nat := ((c.map (·.index)).min?).getD 0

end Cycle
end Interleave
