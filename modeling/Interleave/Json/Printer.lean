import Interleave.Json.Basic
import Interleave.Text.Hex

/-!
# Interleave.Json.Printer

The text of a document, in two layouts: compact, without any blank, and pretty, with one field or
item a line, two more blanks for each level, and empty arrays and objects closed at once.
-/

namespace Interleave
namespace Json

/-- Quotes, backslashes and control characters are escaped; all else stands for itself. -/
def escapeChar (c : Char) : List Char :=
  if c = '"' then ['\\', '"']
  else if c = '\\' then ['\\', '\\']
  else if c = '\n' then ['\\', 'n']
  else if c = '\r' then ['\\', 'r']
  else if c = '\t' then ['\\', 't']
  else if c = '\x08' then ['\\', 'b']
  else if c = '\x0c' then ['\\', 'f']
  else if c.toNat < 0x20 then ['\\', 'u'] ++ (hexText 4 c.toNat).toList
  else [c]

def contentChars : Content → List Char
  | none => ['"', '\\', 'u', 'd', '8', '0', '0', '"']
  | some s => '"' :: s.toList.flatMap escapeChar ++ ['"']

def numberChars : Number → List Char
  | .unsigned n => Nat.toDigits 10 n
  | .negative n => '-' :: Nat.toDigits 10 n
  | .decimal negated digits exponent =>
    (if negated then ['-'] else []) ++ Nat.toDigits 10 digits ++ ['e'] ++
      (if exponent < 0 then ['-'] else []) ++ Nat.toDigits 10 exponent.natAbs

mutual

def compactChars : Json → List Char
  | null => "null".toList
  | bool true => "true".toList
  | bool false => "false".toList
  | number n => numberChars n
  | string c => contentChars c
  | array items => '[' :: compactItems true items
  | object fields => '\x7b' :: compactFields true fields

/-- The items still to write and the closing bracket; each but the first of all follows a comma. -/
def compactItems (first : Bool) : List Json → List Char
  | [] => [']']
  | item :: rest =>
    (if first then [] else [',']) ++ compactChars item ++ compactItems false rest

def compactFields (first : Bool) : List (Content × Json) → List Char
  | [] => ['\x7d']
  | field :: rest =>
    (if first then [] else [',']) ++ compactField field ++ compactFields false rest

def compactField : Content × Json → List Char
  | (key, value) => contentChars key ++ ':' :: compactChars value

end

/-- The start of a line at a depth. -/
def newLine (depth : Nat) : List Char := '\n' :: List.replicate (2 * depth) ' '

mutual

def prettyChars (depth : Nat) : Json → List Char
  | null => "null".toList
  | bool true => "true".toList
  | bool false => "false".toList
  | number n => numberChars n
  | string c => contentChars c
  | array items => '[' :: prettyItems depth true items
  | object fields => '\x7b' :: prettyFields depth true fields

def prettyItems (depth : Nat) (first : Bool) : List Json → List Char
  | [] => (if first then [] else newLine depth) ++ [']']
  | item :: rest =>
    (if first then [] else [',']) ++ newLine (depth + 1) ++ prettyChars (depth + 1) item ++
      prettyItems depth false rest

def prettyFields (depth : Nat) (first : Bool) : List (Content × Json) → List Char
  | [] => (if first then [] else newLine depth) ++ ['\x7d']
  | field :: rest =>
    (if first then [] else [',']) ++ newLine (depth + 1) ++ prettyField (depth + 1) field ++
      prettyFields depth false rest

def prettyField (depth : Nat) : Content × Json → List Char
  | (key, value) => contentChars key ++ ':' :: ' ' :: prettyChars depth value

end

def compact (d : Json) : String := String.ofList d.compactChars

def pretty (d : Json) : String := String.ofList (d.prettyChars 0)

end Json
end Interleave
