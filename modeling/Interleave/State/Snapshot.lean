import Interleave.Ordered.Table
import Interleave.Candidate
import Interleave.Heat
import Interleave.Text.Hex

/-!
# Interleave.State.Snapshot

A state as it was after one step: its fingerprint, the enabled units and how each monitor stood.
-/

namespace Interleave

structure Snapshot where
  fingerprint : UInt64
  enabled : Collection UnitId
  monitors : Table String Heat

namespace Snapshot

/-- A monitor not known then was neither hot nor cold. -/
def heatOf (s : Snapshot) (name : String) : Heat := (s.monitors.get? name).getD .neutral

def text (s : Snapshot) : String :=
  "state " ++ hexText 16 s.fingerprint.toNat ++ " enabled [" ++
    ", ".intercalate (s.enabled.toList.map fun u => toString u.value.toNat) ++ "] monitors \x7b" ++
    ", ".intercalate (s.monitors.entries.map fun m => m.1 ++ ": " ++ m.2.text) ++ "\x7d"

end Snapshot
end Interleave
