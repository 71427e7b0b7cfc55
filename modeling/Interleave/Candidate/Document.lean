import Interleave.Candidate
import Interleave.Json.Fields

/-!
# Interleave.Candidate.Document

Candidates as documents. An operation is written only where one is declared.
-/

namespace Interleave

namespace UnitId

def toJson (u : UnitId) : Json := .word u.value

def ofJson? (d : Json) : Option UnitId := d.word?.map UnitId.mk

end UnitId

namespace Operation

def toJson (o : Operation) : Json :=
  .record [("kind", .text o.kind.name), ("target", o.target.toJson)]

def ofJson? (d : Json) : Option Operation := do
  let f ← Json.Fields.of? ["kind", "target"] d
  let kind ← f.required "kind" fun d => d.alternative?.bind OperationKind.ofName?
  let target ← f.required "target" UnitId.ofJson?
  pure ⟨kind, target⟩

end Operation

namespace Candidate

def toJson (c : Candidate) : Json :=
  .record (
    [("id", c.id.toJson), ("kind", .text c.kind.name), ("is_enabled", .bool c.enabled)] ++
      (c.pending.map fun o => ("pending", o.toJson)).toList)

def ofJson? (d : Json) : Option Candidate := do
  let f ← Json.Fields.of? ["id", "kind", "is_enabled", "pending"] d
  let id ← f.required "id" UnitId.ofJson?
  let kind ← f.required "kind" fun d => d.alternative?.bind UnitKind.ofName?
  let enabled ← f.required "is_enabled" Json.bool?
  let pending ← f.withDefault "pending" (·.nullable? Operation.ofJson?) none
  pure ⟨id, kind, enabled, pending⟩

end Candidate
end Interleave
