/-!
# Interleave.Heat

How a monitor sees the progress of the program: hot while something is still owed, cold once it
has happened, neither otherwise.
-/

namespace Interleave

inductive Heat
  | neutral
  | hot
  | cold
deriving DecidableEq, Repr, Inhabited

namespace Heat

/-- The word used in reports for people. -/
def text : Heat → String
  | neutral => "none"
  | hot => "hot"
  | cold => "cold"

/-- The word used in documents. -/
def name : Heat → String
  | neutral => "None"
  | hot => "Hot"
  | cold => "Cold"

def ofName? : String → Option Heat
  | "None" => some neutral
  | "Hot" => some hot
  | "Cold" => some cold
  | _ => none

def isHot : Heat → Bool
  | hot => true
  | _ => false

def isCold : Heat → Bool
  | cold => true
  | _ => false

theorem isCold_of_isHot {h : Heat} (hh : h.isHot = true) : h.isCold = false := by
  cases h <;> simp_all [isHot, isCold]

end Heat

/-- Names in single quotes with commas between. -/
def quotedNames (names : List String) : String :=
  ", ".intercalate (names.map fun name => "'" ++ name ++ "'")

end Interleave
