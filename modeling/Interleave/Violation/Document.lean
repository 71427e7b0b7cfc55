import Interleave.Refusal
import Interleave.Json.Basic

/-!
# Interleave.Violation.Document

Liveness violations as documents.
-/

namespace Interleave

def Violation.toJson (v : Violation) : Json :=
  .record [("monitors", .strings v.monitors), ("temperature", .nat v.temperature),
    ("cycle_len", .nat v.cycleLength)]

end Interleave
