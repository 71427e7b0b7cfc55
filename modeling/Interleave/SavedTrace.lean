import Interleave.Trace.Document
import Interleave.Json.Printer
import Interleave.Json.Reader

/-!
# Interleave.SavedTrace

A trace kept for a later run: the version of its form, whether the strategy that recorded it was
fair, and the choices. `read` takes a text back that `write` made, `load` one that stands in a
place that may be empty.
-/

namespace Interleave

structure SavedTrace where
  version : UInt32
  fair : Bool
  trace : Trace
deriving DecidableEq, Repr

inductive SavedTraceError
  | unreadable (path : String)
  | malformed
  | unsupported (version : UInt32)
deriving DecidableEq, Repr

namespace SavedTrace

/-- The version that is written, and the only one that is read. -/
def currentVersion : UInt32 := 1

def ofTrace (t : Trace) (fair : Bool) : SavedTrace := ⟨currentVersion, fair, t⟩

def toJson (s : SavedTrace) : Json :=
  .record [("version", .nat s.version.toNat), ("is_fair", .bool s.fair), ("steps", s.trace.toJson)]

def ofJson? (d : Json) : Option SavedTrace := do
  let f ← Json.Fields.of? ["version", "is_fair", "steps"] d
  let version ← f.required "version" (·.natBelow? UInt32.size)
  let fair ← f.required "is_fair" Json.bool?
  let trace ← f.required "steps" (Trace.ofJson? 1)
  pure ⟨UInt32.ofNat version, fair, trace⟩

def write (s : SavedTrace) : String := s.toJson.pretty

/-- The whole text is read before its version is looked at. -/
def read (text : String) : Except SavedTraceError SavedTrace :=
  match (Json.read? text).bind ofJson? with
  | none => .error .malformed
  | some s => if s.version = currentVersion then .ok s else .error (.unsupported s.version)

/-- Read what stands at a path. -/
def load (contents : String → Option String) (path : String) :
    Except SavedTraceError SavedTrace :=
  match contents path with
  | none => .error (.unreadable path)
  | some text => read text

end SavedTrace

def SavedTraceError.message : SavedTraceError → String
  | unreadable path => "Failed to read trace from \"" ++ path ++ "\""
  | malformed => "Failed to deserialize trace"
  | unsupported version =>
    "Unsupported trace format version " ++ toString version.toNat ++ " (expected " ++
      toString SavedTrace.currentVersion.toNat ++ ")"

end Interleave
