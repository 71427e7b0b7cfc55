import Interleave.Json.Basic

/-!
# Interleave.Json.Reader

Reading a document from text, strictly: no comments, no trailing commas, no leading zeros, no bare
control characters in strings, nothing but blanks after the document. Each reader takes the
characters ahead and gives what it read with those left over.
-/

namespace Interleave
namespace Json

def isBlank (c : Char) : Bool := c = ' ' || c = '\t' || c = '\n' || c = '\r'

def skipBlanks (cs : List Char) : List Char := cs.dropWhile isBlank

def hexValue? (c : Char) : Option Nat :=
  if '0' ≤ c ∧ c ≤ '9' then some (c.toNat - '0'.toNat)
  else if 'a' ≤ c ∧ c ≤ 'f' then some (c.toNat - 'a'.toNat + 10)
  else if 'A' ≤ c ∧ c ≤ 'F' then some (c.toNat - 'A'.toNat + 10)
  else none

def hexValues? (a b c d : Char) : Option Nat := do
  let a ← hexValue? a
  let b ← hexValue? b
  let c ← hexValue? c
  let d ← hexValue? d
  pure (((a * 16 + b) * 16 + c) * 16 + d)

def simpleEscape? : Char → Option Char
  | '"' => some '"'
  | '\\' => some '\\'
  | '/' => some '/'
  | 'b' => some '\x08'
  | 'f' => some '\x0c'
  | 'n' => some '\n'
  | 'r' => some '\r'
  | 't' => some '\t'
  | _ => none

/-- The code points of a string literal after its opening quote, the halves of surrogate pairs one
by one. -/
def readPoints : List Char → Option (List Nat × List Char)
  | [] => none
  | '"' :: rest => some ([], rest)
  | '\\' :: 'u' :: a :: b :: c :: d :: rest => do
    let point ← hexValues? a b c d
    let (points, rest) ← readPoints rest
    pure (point :: points, rest)
  | '\\' :: c :: rest => do
    let c ← simpleEscape? c
    let (points, rest) ← readPoints rest
    pure (c.toNat :: points, rest)
  | c :: rest =>
    if c.toNat < 0x20 then none else do
      let (points, rest) ← readPoints rest
      pure (c.toNat :: points, rest)

def isHighHalf (n : Nat) : Bool := 0xd800 ≤ n && n < 0xdc00

def isLowHalf (n : Nat) : Bool := 0xdc00 ≤ n && n < 0xe000

/-- Join the halves of each surrogate pair; a half that stands alone makes no text. -/
def joinPairs : List Nat → Option (List Char)
  | [] => some []
  | [n] => if isHighHalf n || isLowHalf n then none else some [Char.ofNat n]
  | m :: n :: rest =>
    if isHighHalf m then
      if isLowHalf n then
        (joinPairs rest).map (Char.ofNat ((m - 0xd800) * 0x400 + (n - 0xdc00) + 0x10000) :: ·)
      else none
    else if isLowHalf m then none
    else (joinPairs (n :: rest)).map (Char.ofNat m :: ·)

def readContent (cs : List Char) : Option (Content × List Char) :=
  (readPoints cs).map fun (points, rest) => ((joinPairs points).map String.ofList, rest)

def isDigit (c : Char) : Bool := '0' ≤ c && c ≤ '9'

/-- The number that decimal digits spell. -/
def digitsValue (ds : List Char) : Nat := ds.foldl (fun n c => 10 * n + (c.toNat - '0'.toNat)) 0

/-- One digit or more. -/
def readDigits (cs : List Char) : Option (List Char × List Char) :=
  let ds := cs.takeWhile isDigit
  if ds.isEmpty then none else some (ds, cs.dropWhile isDigit)

/-- The whole part: a zero alone, or digits that do not start with one. -/
def readWhole : List Char → Option (List Char × List Char)
  | '0' :: rest => some (['0'], rest)
  | cs => readDigits cs

/-- The digits after a point, if one follows. -/
def readFraction : List Char → Option (Option (List Char) × List Char)
  | '.' :: rest => (readDigits rest).map fun (ds, rest) => (some ds, rest)
  | cs => some (none, cs)

def readExponent : List Char → Option (Option Int × List Char)
  | c :: rest =>
    if c = 'e' ∨ c = 'E' then
      match rest with
      | '-' :: rest =>
        (readDigits rest).map fun (ds, rest) => (some (-(digitsValue ds : Int)), rest)
      | '+' :: rest =>
        (readDigits rest).map fun (ds, rest) => (some (digitsValue ds : Int), rest)
      | rest => (readDigits rest).map fun (ds, rest) => (some (digitsValue ds : Int), rest)
    else some (none, c :: rest)
  | [] => some (none, [])

def numberOf (negated : Bool) (whole : List Char) (fraction : Option (List Char))
    (exponent : Option Int) : Number :=
  match fraction, exponent with
  | none, none => if negated then .negative (digitsValue whole) else .unsigned (digitsValue whole)
  | fraction, exponent =>
    let places := fraction.getD []
    .decimal negated (digitsValue (whole ++ places)) (exponent.getD 0 - places.length)

def readUnsigned (negated : Bool) (cs : List Char) : Option (Number × List Char) := do
  let (whole, cs) ← readWhole cs
  let (fraction, cs) ← readFraction cs
  let (exponent, cs) ← readExponent cs
  pure (numberOf negated whole fraction exponent, cs)

def readNumber : List Char → Option (Number × List Char)
  | '-' :: rest => readUnsigned true rest
  | cs => readUnsigned false cs

mutual

/-- A value that starts here; the first argument bounds how deep calls may nest. -/
def readValue : Nat → List Char → Option (Json × List Char)
  | 0, _ => none
  | fuel + 1, cs =>
    match cs with
    | 'n' :: 'u' :: 'l' :: 'l' :: rest => some (.null, rest)
    | 't' :: 'r' :: 'u' :: 'e' :: rest => some (.bool true, rest)
    | 'f' :: 'a' :: 'l' :: 's' :: 'e' :: rest => some (.bool false, rest)
    | '"' :: rest => (readContent rest).map fun (content, rest) => (.string content, rest)
    | '[' :: rest =>
      match skipBlanks rest with
      | ']' :: rest => some (.array [], rest)
      | rest => (readItems fuel rest).map fun (items, rest) => (.array items, rest)
    | '\x7b' :: rest =>
      match skipBlanks rest with
      | '\x7d' :: rest => some (.object [], rest)
      | rest => (readFields fuel rest).map fun (fields, rest) => (.object fields, rest)
    | cs => (readNumber cs).map fun (n, rest) => (.number n, rest)

/-- One item or more, up to the closing bracket. -/
def readItems : Nat → List Char → Option (List Json × List Char)
  | 0, _ => none
  | fuel + 1, cs => do
    let (item, cs) ← readValue fuel (skipBlanks cs)
    match skipBlanks cs with
    | ']' :: rest => pure ([item], rest)
    | ',' :: rest =>
      let (items, rest) ← readItems fuel rest
      pure (item :: items, rest)
    | _ => none

/-- One field or more, up to the closing brace. -/
def readFields : Nat → List Char → Option (List (Content × Json) × List Char)
  | 0, _ => none
  | fuel + 1, cs =>
    match skipBlanks cs with
    | '"' :: rest => do
      let (key, cs) ← readContent rest
      match skipBlanks cs with
      | ':' :: rest =>
        let (value, cs) ← readValue fuel (skipBlanks rest)
        match skipBlanks cs with
        | '\x7d' :: rest => pure ([(key, value)], rest)
        | ',' :: rest =>
          let (fields, rest) ← readFields fuel rest
          pure ((key, value) :: fields, rest)
        | _ => none
      | _ => none
    | _ => none

end

/-- The document that a text spells. A level of brackets nests two calls and takes two characters,
a further item one call and its comma, so the length of the text bounds how deep calls nest. -/
def read? (s : String) : Option Json :=
  let cs := s.toList
  match readValue (cs.length + 1) (skipBlanks cs) with
  | some (d, rest) => if (skipBlanks rest).isEmpty then some d else none
  | none => none

end Json
end Interleave
