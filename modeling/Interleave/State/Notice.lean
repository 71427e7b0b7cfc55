import Interleave.Candidate
import Interleave.Heat

/-!
# Interleave.State.Notice

What a program tells about itself while it runs.
-/

namespace Interleave

inductive Notice
  /-- A machine pushes a state on its stack. -/
  | enter (unit : UnitId) (state : String)
  /-- A machine leaves a state; one that is not on top of its stack is left as it is. -/
  | exit (unit : UnitId) (state : String)
  | localHash (unit : UnitId) (hash : UInt64)
  | monitor (name state : String) (heat : Heat)
  | heat (name : String) (heat : Heat)
  | log (line : String)
deriving DecidableEq, Repr

end Interleave
