/-!
# Interleave.Json.Basic

JSON documents. The fields of an object keep their order and may repeat. A string literal can
escape one half of a surrogate pair; it denotes no text then and its content is `none`.
-/

namespace Interleave

/-- Numbers by the form of their literal: without a sign, with one, or with a point or an
exponent. -/
inductive Number
  | unsigned (n : Nat)
  /-- The literal of `-n`, also for zero. -/
  | negative (n : Nat)
  /-- `digits * 10 ^ exponent`, negated if so marked. -/
  | decimal (negated : Bool) (digits : Nat) (exponent : Int)
deriving DecidableEq, Repr, Inhabited

/-- The text of a string literal, if it has one. -/
abbrev Content := Option String

inductive Json
  | null
  | bool (value : Bool)
  | number (value : Number)
  | string (content : Content)
  | array (items : List Json)
  | object (fields : List (Content × Json))
deriving Inhabited

namespace Json

def text (s : String) : Json := .string (some s)

def nat (n : Nat) : Json := .number (.unsigned n)

def word (n : UInt64) : Json := nat n.toNat

def strings (ss : List String) : Json := .array (ss.map text)

/-- An object with the given fields. -/
def record (fields : List (String × Json)) : Json :=
  .object (fields.map fun field => (some field.1, field.2))

def orNull {α : Type} (f : α → Json) : Option α → Json
  | none => null
  | some a => f a

end Json
end Interleave
