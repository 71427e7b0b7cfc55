import Interleave.Trace
import Interleave.Candidate.Document
import Interleave.Json.Fields
import Interleave.Json.Buffered

/-!
# Interleave.Trace.Document

Choices as documents. A record carries its kind in the field `type`, which may stand anywhere, or
comes first where the record is an array; all that stands beside the kind is held until the kind is
known, and so has to be readable in full.
-/

namespace Interleave
namespace Choice

def toJson : Choice → Json
  | unit u => .record [("type", .text "schedule"), ("unit", u.toJson)]
  | boolean b => .record [("type", .text "boolean"), ("value", .bool b)]
  | fairBoolean id b =>
    .record [("type", .text "fair_boolean"), ("id", .text id), ("value", .bool b)]
  | integer n => .record [("type", .text "integer"), ("value", .word n)]

/-- The fields beside the kind, read as that kind has them. -/
def ofFields? (kind : String) (d : Json) : Option Choice :=
  match kind with
  | "schedule" => do
    let f ← Json.Fields.of? ["unit"] d
    let u ← f.required "unit" UnitId.ofJson?
    pure (.unit u)
  | "boolean" => do
    let f ← Json.Fields.of? ["value"] d
    let b ← f.required "value" Json.bool?
    pure (.boolean b)
  | "fair_boolean" => do
    let f ← Json.Fields.of? ["id", "value"] d
    let id ← f.required "id" Json.text?
    let b ← f.required "value" Json.bool?
    pure (.fairBoolean id b)
  | "integer" => do
    let f ← Json.Fields.of? ["value"] d
    let n ← f.required "value" Json.word?
    pure (.integer n)
  | _ => none

/-- The kind of a record and what stands beside it. -/
def split? : Json → Option (String × Json)
  | .object fields =>
    match Json.Fields.valuesOf "type" fields with
    | [.string (some kind)] =>
      some (kind, .object (fields.filter fun field => field.1 != some "type"))
    | _ => none
  | .array (.string (some kind) :: rest) => some (kind, .array rest)
  | _ => none

/-- Read a record that may still nest so many levels of arrays and objects, itself included. -/
def ofJson? (levels : Nat) (d : Json) : Option Choice := do
  let (kind, beside) ← split? d
  if beside.isReadable levels then ofFields? kind beside else none

end Choice

/-- A document may nest this many levels of arrays and objects where it is held before it is
understood. -/
def maxLevels : Nat := 127

namespace Trace

def toJson (t : Trace) : Json := .array (t.toList.map Choice.toJson)

/-- Read the records of a trace that stands inside so many levels itself. -/
def ofJson? (outside : Nat) (d : Json) : Option Trace :=
  (d.list? (Choice.ofJson? (maxLevels - 1 - outside))).map ofList

end Trace
end Interleave
