import Interleave.Ordered.Table
import Interleave.State.Element
import Interleave.State.Notice

/-!
# Interleave.State.Observed

The state of a program as its notices tell it: the state stack and local hash of each machine, the
state of each monitor. Each holds the hash of its element, and the sums of those hashes are kept up
to date, so that a fingerprint needs to hash the enabled units only. The hash of an element is a
parameter throughout.
-/

namespace Interleave

/-- A machine: its states, the top one first, and its hash as last counted. -/
structure Machine where
  stack : List String
  localHash : Option UInt64
  hash : UInt64
deriving Repr

/-- A monitor and its hash as last counted. -/
structure Monitor where
  state : String
  heat : Heat
  hash : UInt64
deriving Repr

namespace Machine

def fresh : Machine := ⟨[], none, 0⟩

def element (unit : UnitId) (m : Machine) : Element := .machine unit m.stack.head? m.localHash

def enter (state : String) (m : Machine) : Machine := { m with stack := state :: m.stack }

def exit (state : String) (m : Machine) : Machine :=
  if m.stack.head? = some state then { m with stack := m.stack.tail } else m

end Machine

namespace Monitor

def fresh : Monitor := ⟨"", .neutral, 0⟩

def element (name : String) (m : Monitor) : Element := .monitor name m.state m.heat

end Monitor

structure Observed where
  machines : Table UnitId Machine
  monitors : Table String Monitor
  machineSum : UInt64
  monitorSum : UInt64

namespace Observed

def empty : Observed := ⟨∅, ∅, 0, 0⟩

instance : Inhabited Observed := ⟨empty⟩

/-- Change a machine, made on first mention, and replace its part of the sum. -/
def changeMachine (digest : Element → UInt64) (unit : UnitId) (f : Machine → Machine)
    (o : Observed) : Observed :=
  let old := (o.machines.get? unit).getD .fresh
  let new := f old
  let hash := digest (new.element unit)
  { o with
    machines := o.machines.insert unit { new with hash }
    machineSum := o.machineSum - old.hash + hash }

/-- Change a monitor, made on first mention, and replace its part of the sum. -/
def changeMonitor (digest : Element → UInt64) (name : String) (f : Monitor → Monitor)
    (o : Observed) : Observed :=
  let old := (o.monitors.get? name).getD .fresh
  let new := f old
  let hash := digest (new.element name)
  { o with
    monitors := o.monitors.insert name { new with hash }
    monitorSum := o.monitorSum - old.hash + hash }

def note (digest : Element → UInt64) (o : Observed) : Notice → Observed
  | .enter unit state => o.changeMachine digest unit (·.enter state)
  | .exit unit state => o.changeMachine digest unit (·.exit state)
  | .localHash unit hash =>
    o.changeMachine digest unit fun m => { m with localHash := some hash }
  | .monitor name state heat => o.changeMonitor digest name fun m => { m with state, heat }
  | .heat name heat => o.changeMonitor digest name fun m => { m with heat }
  | .log _ => o

def heatOf (o : Observed) (name : String) : Heat :=
  ((o.monitors.get? name).map (·.heat)).getD .neutral

def currentState? (o : Observed) (unit : UnitId) : Option String :=
  (o.machines.get? unit).bind (·.stack.head?)

/-- The sum of the hashes of all elements, those of the enabled candidates included. -/
def fingerprint (digest : Element → UInt64) (candidates : List Candidate) (o : Observed) :
    UInt64 :=
  o.machineSum + o.monitorSum +
    (enabledIds candidates).foldl (fun sum unit => sum + digest (.enabled unit)) 0

end Observed
end Interleave
