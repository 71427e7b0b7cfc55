import Interleave.Json.Basic

/-!
# Interleave.Json.Fields

Reading typed values out of documents. A structure is written as an object, whose unknown fields
are ignored and whose known ones may stand in any order but only once, or as an array of its fields
in order. `Fields` holds the known fields found in either.
-/

namespace Interleave
namespace Json

/-- A natural number below the bound, written without sign, point or exponent. -/
def natBelow? (bound : Nat) : Json → Option Nat
  | number (.unsigned n) => if n < bound then some n else none
  | _ => none

def word? (d : Json) : Option UInt64 := (d.natBelow? UInt64.size).map UInt64.ofNat

/-- A counter is a natural number of 64 bits. -/
def count? (d : Json) : Option Nat := d.natBelow? UInt64.size

def bool? : Json → Option Bool
  | bool b => some b
  | _ => none

def text? : Json → Option String
  | string c => c
  | _ => none

def items? : Json → Option (List Json)
  | array items => some items
  | _ => none

def list? {α : Type} (read : Json → Option α) (d : Json) : Option (List α) :=
  d.items?.bind (·.mapM read)

/-- `null` stands for an absent value. -/
def nullable? {α : Type} (read : Json → Option α) : Json → Option (Option α)
  | null => some none
  | d => (read d).map some

/-- The name of an alternative without data: a string, or an object that maps the name to `null`. -/
def alternative? : Json → Option String
  | string c => c
  | object [(key, null)] => key
  | _ => none

/-- An object as a list of names and values; the last of equal names counts for a map, so order is
kept. -/
def entries? {α : Type} (read : Json → Option α) : Json → Option (List (String × α))
  | object fields => fields.mapM fun (key, value) => do
      let key ← key
      let value ← read value
      pure (key, value)
  | _ => none

/-- The known fields of a structure. -/
structure Fields where
  found : List (String × Json)
  /-- Written as an array, where only fields with a default may be missing. -/
  positional : Bool

namespace Fields

/-- The values that an object gives to a field. -/
def valuesOf (name : String) (fields : List (Content × Json)) : List Json :=
  (fields.filter fun field => field.1 == some name).map (·.2)

/-- The known fields of an object in the order of `names`; none of them may repeat, and no name at
all may be unreadable. -/
def ofObject? (names : List String) (fields : List (Content × Json)) : Option Fields :=
  if fields.any (·.1.isNone) then none
  else do
    let found ← names.mapM fun name =>
      match valuesOf name fields with
      | [] => some []
      | [value] => some [(name, value)]
      | _ => none
    pure ⟨found.flatten, false⟩

def ofArray? (names : List String) (items : List Json) : Option Fields :=
  if names.length < items.length then none else some ⟨names.zip items, true⟩

def of? (names : List String) : Json → Option Fields
  | object fields => ofObject? names fields
  | array items => ofArray? names items
  | _ => none

/-- Whether each field of the object is one of the names. -/
def onlyKnown (names : List String) : Json → Bool
  | object fields => fields.all fun field => names.any fun name => field.1 == some name
  | _ => true

def get? (f : Fields) (name : String) : Option Json := f.found.lookup name

def required {α : Type} (f : Fields) (name : String) (read : Json → Option α) : Option α :=
  (f.get? name).bind read

/-- A field that may be `null`, and missing where the fields are named. -/
def optional {α : Type} (f : Fields) (name : String) (read : Json → Option α) :
    Option (Option α) :=
  match f.get? name with
  | some d => d.nullable? read
  | none => if f.positional then none else some none

/-- A field that has a default when it is missing. -/
def withDefault {α : Type} (f : Fields) (name : String) (read : Json → Option α) (default : α) :
    Option α :=
  match f.get? name with
  | some d => read d
  | none => some default

end Fields
end Json
end Interleave
