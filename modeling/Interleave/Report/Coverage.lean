import Interleave.Ordered.Table

/-!
# Interleave.Report.Coverage

The states that runs have visited, of each machine by its label and of each monitor by its name.
-/

namespace Interleave

/-- The states seen under each name. -/
abbrev StatesByName := Table String (Collection String)

namespace StatesByName

def record (t : StatesByName) (name state : String) : StatesByName :=
  t.update name fun states => Collection.insert (states.getD ∅) state

def merge (t u : StatesByName) : StatesByName := Table.merge Collection.union t u

def total (t : StatesByName) : Nat := t.values.foldl (fun n states => n + Table.size states) 0

end StatesByName

structure Coverage where
  machines : StatesByName
  monitors : StatesByName

namespace Coverage

def empty : Coverage := ⟨∅, ∅⟩

instance : Inhabited Coverage := ⟨empty⟩

def recordMachine (c : Coverage) (label state : String) : Coverage :=
  { c with machines := c.machines.record label state }

def recordMonitor (c : Coverage) (name state : String) : Coverage :=
  { c with monitors := c.monitors.record name state }

def merge (c d : Coverage) : Coverage :=
  ⟨c.machines.merge d.machines, c.monitors.merge d.monitors⟩

def total (c : Coverage) : Nat := c.machines.total + c.monitors.total

def isEmpty (c : Coverage) : Bool := c.machines.isEmpty && c.monitors.isEmpty

end Coverage
end Interleave
