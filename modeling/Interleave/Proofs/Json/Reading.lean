import Mathlib.Data.List.DropRight
import Interleave.Json.Printer
import Interleave.Json.Reader

/-!
# Interleave.Proofs.Json.Reading

A printed document is read back as it was: its strings with all their characters, also those that
are escaped and the literal that denotes no text; its numbers in each of their three forms; its
arrays and objects with their items and fields in order.

* `readPoints_escaped`, `readContent_contentChars`: string literals.
* `readNumber_numberChars`: numbers, before whatever cannot go on with one.
* `readValue_prettyChars`: a value at any depth, with the characters that follow it left over.
* `read?_pretty`: whole documents.
-/

namespace Interleave
namespace Json

/-! ### String literals -/

theorem hexValue?_digitChar {n : Nat} (hn : n < 16) : hexValue? n.digitChar = some n := by
  revert n
  decide

/-- Control characters are below 32, so that two of the four digits are zeros. -/
theorem hexText_four {n : Nat} (hn : n < 32) :
    (hexText 4 n).toList = ['0', '0', (n / 16).digitChar, (n % 16).digitChar] := by
  revert n
  decide

theorem hexValues?_hexText {n : Nat} (hn : n < 32) :
    hexValues? '0' '0' (n / 16).digitChar (n % 16).digitChar = some n := by
  have hhigh : hexValue? (n / 16).digitChar = some (n / 16) := hexValue?_digitChar (by omega)
  have hlow : hexValue? (n % 16).digitChar = some (n % 16) := hexValue?_digitChar (by omega)
  have hzero : hexValue? '0' = some 0 := by decide
  simp only [hexValues?, hzero, hhigh, hlow, Option.bind_eq_bind, Option.bind_some,
    Option.pure_def, Option.some.injEq]
  omega

theorem readPoints_plain {c : Char} (hquote : c ≠ '"') (hslash : c ≠ '\\') (hcontrol : 32 ≤ c.toNat)
    (rest : List Char) :
    readPoints (c :: rest) =
      (readPoints rest).map fun read => (c.toNat :: read.1, read.2) := by
  rw [readPoints.eq_def]
  split
  case h_1 heq => cases heq
  case h_2 heq => cases heq; exact absurd rfl hquote
  case h_3 heq => cases heq; exact absurd rfl hslash
  case h_4 heq => cases heq; exact absurd rfl hslash
  case h_5 heq =>
    cases heq
    rw [if_neg (by omega)]
    cases readPoints rest <;> rfl

theorem readPoints_escapeChar (c : Char) (rest : List Char) :
    readPoints (escapeChar c ++ rest) =
      (readPoints rest).map fun read => (c.toNat :: read.1, read.2) := by
  unfold escapeChar
  split
  case isTrue h => subst h; cases h : readPoints rest <;> simp [readPoints, simpleEscape?, h]
  case isFalse hquote =>
  split
  case isTrue h => subst h; cases h : readPoints rest <;> simp [readPoints, simpleEscape?, h]
  case isFalse hslash =>
  split
  case isTrue h => subst h; cases h : readPoints rest <;> simp [readPoints, simpleEscape?, h]
  split
  case isTrue h => subst h; cases h : readPoints rest <;> simp [readPoints, simpleEscape?, h]
  split
  case isTrue h => subst h; cases h : readPoints rest <;> simp [readPoints, simpleEscape?, h]
  split
  case isTrue h => subst h; cases h : readPoints rest <;> simp [readPoints, simpleEscape?, h]
  split
  case isTrue h => subst h; cases h : readPoints rest <;> simp [readPoints, simpleEscape?, h]
  split
  case isTrue hcontrol =>
    rw [hexText_four hcontrol]
    cases h : readPoints rest <;> simp [readPoints, hexValues?_hexText hcontrol, h]
  case isFalse hcontrol =>
    exact readPoints_plain hquote hslash (by omega) rest

theorem readPoints_escaped (cs rest : List Char) :
    readPoints (cs.flatMap escapeChar ++ '"' :: rest) = some (cs.map Char.toNat, rest) := by
  induction cs with
  | nil => simp [readPoints]
  | cons c cs ih =>
    rw [List.flatMap_cons, List.append_assoc, readPoints_escapeChar, ih]
    rfl

/-- No character is half of a surrogate pair. -/
theorem not_isHalf (c : Char) : isHighHalf c.toNat = false ∧ isLowHalf c.toNat = false := by
  have hvalid : c.toNat < 0xd800 ∨ 0xdfff < c.toNat ∧ c.toNat < 0x110000 := c.valid
  simp only [isHighHalf, isLowHalf, Bool.and_eq_false_iff, decide_eq_false_iff_not]
  omega

theorem joinPairs_map_toNat (cs : List Char) : joinPairs (cs.map Char.toNat) = some cs := by
  induction cs with
  | nil => rfl
  | cons c cs ih =>
    obtain ⟨hhigh, hlow⟩ := not_isHalf c
    cases cs with
    | nil => simp [joinPairs, hhigh, hlow, Char.ofNat_toNat]
    | cons d cs =>
      simp only [List.map_cons] at ih ⊢
      simp [joinPairs, hhigh, hlow, ih, Char.ofNat_toNat]

/-- A literal without its opening quote. -/
theorem readContent_contentChars (content : Content) :
    ∃ literal, contentChars content = '"' :: literal ∧
      ∀ rest, readContent (literal ++ rest) = some (content, rest) := by
  cases content with
  | none =>
    refine ⟨_, rfl, fun rest => ?_⟩
    have hpoints : hexValues? 'd' '8' '0' '0' = some 0xd800 := by decide
    have hjoin : joinPairs [0xd800] = none := by decide
    simp [readContent, readPoints, hpoints, hjoin]
  | some s =>
    refine ⟨_, rfl, fun rest => ?_⟩
    have hread := readPoints_escaped s.toList rest
    simp only [List.append_eq, List.append_assoc, List.singleton_append, readContent, hread,
      Option.map_some, joinPairs_map_toNat, String.ofList_toList]

/-! ### Numbers -/

theorem isDigit_of_mem_toDigits {n : Nat} {c : Char} (hc : c ∈ Nat.toDigits 10 n) :
    isDigit c = true :=
  Nat.isDigit_of_mem_toDigits (by decide) (by decide) hc

theorem toDigits_eq_digit_cons (n : Nat) :
    ∃ c ds, Nat.toDigits 10 n = c :: ds ∧ isDigit c = true := by
  obtain ⟨c, ds, hds⟩ := List.exists_cons_of_ne_nil (Nat.toDigits_ne_nil (n := n) (b := 10))
  exact ⟨c, ds, hds, isDigit_of_mem_toDigits (hds ▸ List.mem_cons_self)⟩

theorem digitsValue_toDigits (n : Nat) : digitsValue (Nat.toDigits 10 n) = n :=
  Nat.ofDigitChars_toDigits (by decide) (by decide)

/-- The characters ahead do not go on with a number. -/
def EndsNumber (rest : List Char) : Prop :=
  ∀ c ∈ rest.head?, isDigit c = false ∧ c ≠ '.' ∧ c ≠ 'e' ∧ c ≠ 'E'

theorem EndsNumber.cons {c : Char} {rest : List Char}
    (h : isDigit c = false ∧ c ≠ '.' ∧ c ≠ 'e' ∧ c ≠ 'E') : EndsNumber (c :: rest) := by
  rintro d ⟨⟩
  exact h

theorem readDigits_append {ds rest : List Char} (hne : ds ≠ []) (hds : ∀ c ∈ ds, isDigit c = true)
    (hrest : ∀ c ∈ rest.head?, isDigit c = false) : readDigits (ds ++ rest) = some (ds, rest) := by
  have htake : rest.takeWhile isDigit = [] := by
    cases rest with
    | nil => rfl
    | cons c rest => simp [hrest c rfl]
  have hdrop : rest.dropWhile isDigit = rest := by
    cases rest with
    | nil => rfl
    | cons c rest => simp [hrest c rfl]
  rw [readDigits, List.takeWhile_append_of_pos hds, List.dropWhile_append_of_pos hds, htake, hdrop,
    List.append_nil]
  simp [hne]

theorem readDigits_toDigits (n : Nat) {rest : List Char}
    (hrest : ∀ c ∈ rest.head?, isDigit c = false) :
    readDigits (Nat.toDigits 10 n ++ rest) = some (Nat.toDigits 10 n, rest) :=
  readDigits_append Nat.toDigits_ne_nil (fun _ => isDigit_of_mem_toDigits) hrest

theorem digitChar_ne_zero {n : Nat} (hn : n < 10) (hpos : 0 < n) : n.digitChar ≠ '0' := by
  intro h
  have hvalue : n.digitChar.toNat = 48 + n := Nat.toNat_digitChar_of_lt_ten hn
  rw [h] at hvalue
  have hzero : '0'.toNat = 48 := rfl
  omega

/-- Only zero is written with a leading zero. -/
theorem toDigits_eq_cons {n : Nat} (hpos : 0 < n) :
    ∃ c ds, Nat.toDigits 10 n = c :: ds ∧ c ≠ '0' := by
  induction n using Nat.strongRecOn with
  | _ n ih =>
    by_cases hn : n < 10
    · exact ⟨_, [], Nat.toDigits_of_lt_base hn, digitChar_ne_zero hn hpos⟩
    · obtain ⟨c, ds, hds, hc⟩ := ih (n / 10) (by omega) (by omega)
      refine ⟨c, ds ++ [(n % 10).digitChar], ?_, hc⟩
      rw [Nat.toDigits_of_base_le (by decide) (by omega), hds, List.cons_append]

theorem readWhole_toDigits (n : Nat) {rest : List Char}
    (hrest : ∀ c ∈ rest.head?, isDigit c = false) :
    readWhole (Nat.toDigits 10 n ++ rest) = some (Nat.toDigits 10 n, rest) := by
  rcases Nat.eq_zero_or_pos n with rfl | hpos
  · rfl
  · rw [← readDigits_toDigits n hrest]
    obtain ⟨c, ds, hds, hc⟩ := toDigits_eq_cons hpos
    rw [hds, List.cons_append, readWhole]
    rintro _ ⟨⟩
    exact hc rfl

theorem readFraction_of_ne {rest : List Char} (hrest : ∀ c ∈ rest.head?, c ≠ '.') :
    readFraction rest = some (none, rest) := by
  unfold readFraction
  split
  · exact absurd rfl (hrest _ rfl)
  · rfl

theorem readExponent_of_ne {rest : List Char} (hrest : ∀ c ∈ rest.head?, c ≠ 'e' ∧ c ≠ 'E') :
    readExponent rest = some (none, rest) := by
  cases rest with
  | nil => rfl
  | cons c rest =>
    refine if_neg ?_
    rintro (rfl | rfl)
    · exact (hrest _ rfl).1 rfl
    · exact (hrest _ rfl).2 rfl

theorem readExponent_negative (n : Nat) {rest : List Char}
    (hrest : ∀ c ∈ rest.head?, isDigit c = false) :
    readExponent ('e' :: '-' :: (Nat.toDigits 10 n ++ rest)) = some (some (-(n : Int)), rest) := by
  simp [readExponent, readDigits_toDigits n hrest, digitsValue_toDigits]

theorem readExponent_unsigned (n : Nat) {rest : List Char}
    (hrest : ∀ c ∈ rest.head?, isDigit c = false) :
    readExponent ('e' :: (Nat.toDigits 10 n ++ rest)) = some (some (n : Int), rest) := by
  have hread := readDigits_toDigits n hrest
  obtain ⟨c, ds, hds, hc⟩ := toDigits_eq_digit_cons n
  rw [hds, List.cons_append] at hread ⊢
  unfold readExponent
  dsimp only
  rw [if_pos (.inl rfl)]
  -- the first digit is no sign
  split
  case h_1 heq => cases heq; exact absurd hc (by decide)
  case h_2 heq => cases heq; exact absurd hc (by decide)
  case h_3 => simp only [hread, ← hds, digitsValue_toDigits, Option.map_some]

theorem readUnsigned_whole (negated : Bool) (n : Nat) {rest : List Char} (hrest : EndsNumber rest) :
    readUnsigned negated (Nat.toDigits 10 n ++ rest) =
      some (if negated then .negative n else .unsigned n, rest) := by
  simp [readUnsigned, readWhole_toDigits n fun c hc => (hrest c hc).1,
    readFraction_of_ne fun c hc => (hrest c hc).2.1,
    readExponent_of_ne fun c hc => (hrest c hc).2.2, numberOf, digitsValue_toDigits]

theorem readUnsigned_decimal (negated : Bool) (digits : Nat) (exponent : Int) {rest : List Char}
    (hrest : EndsNumber rest) :
    readUnsigned negated (Nat.toDigits 10 digits ++ 'e' :: ((if exponent < 0 then ['-'] else []) ++
        (Nat.toDigits 10 exponent.natAbs ++ rest))) =
      some (.decimal negated digits exponent, rest) := by
  have hwhole (ahead : List Char) : readWhole (Nat.toDigits 10 digits ++ 'e' :: ahead) =
      some (Nat.toDigits 10 digits, 'e' :: ahead) :=
    readWhole_toDigits digits (by rintro c ⟨⟩; decide)
  have hfraction (ahead : List Char) : readFraction ('e' :: ahead) = some (none, 'e' :: ahead) :=
    readFraction_of_ne (by rintro c ⟨⟩; decide)
  have hdigit := fun c hc => (hrest c hc).1
  split
  case isTrue hneg =>
    have hvalue : -((exponent.natAbs : Nat) : Int) = exponent := by omega
    have hexponent := readExponent_negative exponent.natAbs hdigit
    rw [hvalue] at hexponent
    simp [readUnsigned, hwhole, hfraction, hexponent, numberOf, digitsValue_toDigits]
  case isFalse hneg =>
    have hvalue : ((exponent.natAbs : Nat) : Int) = exponent := by omega
    have hexponent := readExponent_unsigned exponent.natAbs hdigit
    rw [hvalue] at hexponent
    simp [readUnsigned, hwhole, hfraction, hexponent, numberOf, digitsValue_toDigits]

theorem readNumber_toDigits (n : Nat) (rest : List Char) :
    readNumber (Nat.toDigits 10 n ++ rest) = readUnsigned false (Nat.toDigits 10 n ++ rest) := by
  obtain ⟨c, ds, hds, hc⟩ := toDigits_eq_digit_cons n
  rw [hds, List.cons_append, readNumber]
  rintro _ ⟨⟩
  exact absurd hc (by decide)

theorem readNumber_numberChars (n : Number) {rest : List Char} (hrest : EndsNumber rest) :
    readNumber (numberChars n ++ rest) = some (n, rest) := by
  cases n with
  | unsigned n => rw [numberChars, readNumber_toDigits, readUnsigned_whole false n hrest]; rfl
  | negative n =>
    rw [numberChars, List.cons_append, readNumber, readUnsigned_whole true n hrest]
    rfl
  | decimal negated digits exponent =>
    have hread := readUnsigned_decimal negated digits exponent hrest
    cases negated with
    | false =>
      rw [← hread, ← readNumber_toDigits]
      simp [numberChars]
    | true =>
      rw [← hread]
      simp [numberChars, readNumber]

/-! ### Values -/

theorem skipBlanks_of_not_isBlank {c : Char} (hc : isBlank c = false) (rest : List Char) :
    skipBlanks (c :: rest) = c :: rest :=
  List.dropWhile_cons_of_neg (by simp [hc])

theorem skipBlanks_newLine (depth : Nat) (rest : List Char) :
    skipBlanks (newLine depth ++ rest) = skipBlanks rest :=
  List.dropWhile_append_of_pos fun c hc => by
    rcases List.mem_cons.1 hc with rfl | hc
    · rfl
    · rw [(List.mem_replicate.1 hc).2]; rfl

theorem isBlank_of_isDigit {c : Char} (hc : isDigit c = true) : isBlank c = false := by
  rw [← Bool.not_eq_true]
  intro hblank
  simp only [isBlank, Bool.or_eq_true, decide_eq_true_eq] at hblank
  rcases hblank with ((rfl | rfl) | rfl) | rfl <;> exact absurd hc (by decide)

/-- The character that a value may start with: it is neither blank nor a closing bracket. -/
def StartsValue (c : Char) : Prop := isBlank c = false ∧ c ≠ ']' ∧ c ≠ '\x7d'

theorem numberChars_eq_cons (n : Number) :
    ∃ c cs, numberChars n = c :: cs ∧ (c = '-' ∨ isDigit c = true) := by
  cases n with
  | unsigned n =>
    obtain ⟨c, ds, hds, hc⟩ := toDigits_eq_digit_cons n
    exact ⟨c, ds, hds, .inr hc⟩
  | negative n => exact ⟨_, _, rfl, .inl rfl⟩
  | decimal negated digits exponent =>
    cases negated with
    | false =>
      obtain ⟨c, ds, hds, hc⟩ := toDigits_eq_digit_cons digits
      exact ⟨c, _, by simp only [numberChars, hds]; rfl, .inr hc⟩
    | true => exact ⟨_, _, rfl, .inl rfl⟩

theorem prettyChars_eq_cons (depth : Nat) (d : Json) :
    ∃ c cs, prettyChars depth d = c :: cs ∧ StartsValue c := by
  cases d with
  | null => exact ⟨_, _, rfl, by simp [StartsValue]; decide⟩
  | bool b => cases b <;> exact ⟨_, _, rfl, by simp [StartsValue]; decide⟩
  | number n =>
    obtain ⟨c, cs, hcs, hc⟩ := numberChars_eq_cons n
    refine ⟨c, cs, hcs, ?_⟩
    rcases hc with rfl | hc
    · simp [StartsValue]; decide
    · refine ⟨isBlank_of_isDigit hc, ?_, ?_⟩ <;> rintro rfl <;> exact absurd hc (by decide)
  | string c =>
    obtain ⟨literal, hliteral, -⟩ := readContent_contentChars c
    exact ⟨_, _, hliteral, by simp [StartsValue]; decide⟩
  | array items => exact ⟨_, _, rfl, by simp [StartsValue]; decide⟩
  | object fields => exact ⟨_, _, rfl, by simp [StartsValue]; decide⟩

theorem readValue_number (n : Number) (fuel : Nat) {rest : List Char} (hrest : EndsNumber rest) :
    readValue (fuel + 1) (numberChars n ++ rest) = some (.number n, rest) := by
  have hread := readNumber_numberChars n hrest
  obtain ⟨c, cs, hcs, hc⟩ := numberChars_eq_cons n
  rw [hcs, List.cons_append] at hread ⊢
  rw [readValue, hread]
  · rfl
  all_goals
    intro _ heq
    rw [(List.cons.inj heq).1] at hc
    exact absurd hc (by decide)

/-- Items and fields that are left are preceded by a comma; the closing bracket by a new line. -/
theorem endsNumber_prettyItems (depth : Nat) (items : List Json) (rest : List Char) :
    EndsNumber (prettyItems depth false items ++ rest) := by
  cases items <;> exact .cons (by decide)

theorem endsNumber_prettyFields (depth : Nat) (fields : List (Content × Json)) (rest : List Char) :
    EndsNumber (prettyFields depth false fields ++ rest) := by
  cases fields <;> exact .cons (by decide)

theorem prettyItems_eq_comma (depth : Nat) (item : Json) (items : List Json) :
    prettyItems depth false (item :: items) = ',' :: prettyItems depth true (item :: items) := by
  simp [prettyItems]

theorem prettyFields_eq_comma (depth : Nat) (field : Content × Json)
    (fields : List (Content × Json)) :
    prettyFields depth false (field :: fields) =
      ',' :: prettyFields depth true (field :: fields) := by
  simp [prettyFields]

theorem skipBlanks_prettyChars (depth : Nat) (d : Json) (rest : List Char) :
    skipBlanks (prettyChars depth d ++ rest) = prettyChars depth d ++ rest := by
  obtain ⟨c, cs, hcs, hc⟩ := prettyChars_eq_cons depth d
  rw [hcs]
  exact skipBlanks_of_not_isBlank hc.1 _

theorem skipBlanks_skipBlanks (cs : List Char) : skipBlanks (skipBlanks cs) = skipBlanks cs :=
  List.dropWhile_idempotent isBlank cs

/-- The first of the items that are left, on a line of its own. -/
theorem skipBlanks_prettyItems (depth : Nat) (item : Json) (items : List Json) (rest : List Char) :
    skipBlanks (prettyItems depth true (item :: items) ++ rest) =
      prettyChars (depth + 1) item ++ (prettyItems depth false items ++ rest) := by
  obtain ⟨c, cs, hcs, hc⟩ := prettyChars_eq_cons (depth + 1) item
  simp only [prettyItems, if_true, List.nil_append, List.append_assoc, skipBlanks_newLine, hcs,
    List.cons_append, skipBlanks_of_not_isBlank hc.1]

theorem skipBlanks_prettyFields (depth : Nat) (key : Content) (value : Json)
    (fields : List (Content × Json)) (rest : List Char) :
    skipBlanks (prettyFields depth true ((key, value) :: fields) ++ rest) =
      contentChars key ++ ':' :: ' ' ::
        (prettyChars (depth + 1) value ++ (prettyFields depth false fields ++ rest)) := by
  obtain ⟨literal, hliteral, -⟩ := readContent_contentChars key
  have hquote : isBlank '"' = false := rfl
  simp only [prettyFields, prettyField, if_true, List.nil_append, List.append_assoc,
    skipBlanks_newLine, hliteral, List.cons_append, skipBlanks_of_not_isBlank hquote]

section Steps

variable {fuel : Nat} {cs ahead rest : List Char} {c : Char}

theorem readItems_skipBlanks (fuel : Nat) (cs : List Char) :
    readItems fuel (skipBlanks cs) = readItems fuel cs := by
  cases fuel <;> simp only [readItems, skipBlanks_skipBlanks]

theorem readFields_skipBlanks (fuel : Nat) (cs : List Char) :
    readFields fuel (skipBlanks cs) = readFields fuel cs := by
  cases fuel <;> simp only [readFields, skipBlanks_skipBlanks]

theorem readValue_array (hahead : skipBlanks cs = c :: ahead) (hc : c ≠ ']') :
    readValue (fuel + 1) ('[' :: cs) =
      (readItems fuel cs).map fun (items, rest) => (.array items, rest) := by
  rw [readValue, ← readItems_skipBlanks, hahead]
  split
  case h_1 heq => exact absurd (List.cons.inj heq).1 hc
  case h_2 => rfl

theorem readValue_object (hahead : skipBlanks cs = c :: ahead) (hc : c ≠ '\x7d') :
    readValue (fuel + 1) ('\x7b' :: cs) =
      (readFields fuel cs).map fun (fields, rest) => (.object fields, rest) := by
  rw [readValue, ← readFields_skipBlanks, hahead]
  split
  case h_1 heq => exact absurd (List.cons.inj heq).1 hc
  case h_2 => rfl

theorem readItems_last {item : Json} (hitem : readValue fuel (skipBlanks cs) = some (item, ahead))
    (hclose : skipBlanks ahead = ']' :: rest) : readItems (fuel + 1) cs = some ([item], rest) := by
  simp [readItems, hitem, hclose]

theorem readItems_next {item : Json} {items : List Json} {more : List Char}
    (hitem : readValue fuel (skipBlanks cs) = some (item, ahead))
    (hcomma : skipBlanks ahead = ',' :: more) (hitems : readItems fuel more = some (items, rest)) :
    readItems (fuel + 1) cs = some (item :: items, rest) := by
  simp [readItems, hitem, hcomma, hitems]

variable {key : Content} {value : Json} {afterKey afterColon afterValue : List Char}

theorem readFields_last (hquote : skipBlanks cs = '"' :: ahead)
    (hkey : readContent ahead = some (key, afterKey))
    (hcolon : skipBlanks afterKey = ':' :: afterColon)
    (hvalue : readValue fuel (skipBlanks afterColon) = some (value, afterValue))
    (hclose : skipBlanks afterValue = '\x7d' :: rest) :
    readFields (fuel + 1) cs = some ([(key, value)], rest) := by
  simp [readFields, hquote, hkey, hcolon, hvalue, hclose]

theorem readFields_next (hquote : skipBlanks cs = '"' :: ahead)
    (hkey : readContent ahead = some (key, afterKey))
    (hcolon : skipBlanks afterKey = ':' :: afterColon)
    (hvalue : readValue fuel (skipBlanks afterColon) = some (value, afterValue))
    {more : List Char} (hcomma : skipBlanks afterValue = ',' :: more)
    {fields : List (Content × Json)} (hfields : readFields fuel more = some (fields, rest)) :
    readFields (fuel + 1) cs = some ((key, value) :: fields, rest) := by
  simp [readFields, hquote, hkey, hcolon, hvalue, hcomma, hfields]

end Steps

mutual

/-- The length of what is printed is fuel enough: each call for a part leaves out a character. -/
theorem readValue_prettyChars : ∀ (d : Json) (depth fuel : Nat) (rest : List Char),
    (prettyChars depth d).length ≤ fuel → EndsNumber rest →
      readValue fuel (prettyChars depth d ++ rest) = some (d, rest)
  | d, depth, 0, rest, hfuel, _ => by
    obtain ⟨c, cs, hcs, -⟩ := prettyChars_eq_cons depth d
    rw [hcs] at hfuel
    cases hfuel
  | .null, _, _ + 1, _, _, _ => by simp [prettyChars, readValue]
  | .bool true, _, _ + 1, _, _, _ => by simp [prettyChars, readValue]
  | .bool false, _, _ + 1, _, _, _ => by simp [prettyChars, readValue]
  | .number n, _, fuel + 1, _, _, hrest => readValue_number n fuel hrest
  | .string c, depth, fuel + 1, rest, _, _ => by
    obtain ⟨literal, hliteral, hread⟩ := readContent_contentChars c
    rw [prettyChars, hliteral, List.cons_append, readValue, hread]
    rfl
  | .array [], _, _ + 1, _, _, _ => by
    simp [prettyChars, prettyItems, readValue, skipBlanks, isBlank]
  | .array (item :: items), depth, fuel + 1, rest, hfuel, _ => by
    have hitems := readItems_prettyItems (item :: items) depth fuel rest (List.cons_ne_nil _ _)
      (Nat.le_of_succ_le_succ hfuel)
    obtain ⟨c, cs, hcs, hc⟩ := prettyChars_eq_cons (depth + 1) item
    have hahead := skipBlanks_prettyItems depth item items rest
    rw [hcs, List.cons_append] at hahead
    rw [prettyChars, List.cons_append, readValue_array hahead hc.2.1, hitems]
    rfl
  | .object [], _, _ + 1, _, _, _ => by
    simp [prettyChars, prettyFields, readValue, skipBlanks, isBlank]
  | .object ((key, value) :: fields), depth, fuel + 1, rest, hfuel, _ => by
    have hfields := readFields_prettyFields ((key, value) :: fields) depth fuel rest
      (List.cons_ne_nil _ _) (Nat.le_of_succ_le_succ hfuel)
    obtain ⟨literal, hliteral, -⟩ := readContent_contentChars key
    have hahead := skipBlanks_prettyFields depth key value fields rest
    rw [hliteral, List.cons_append] at hahead
    rw [prettyChars, List.cons_append, readValue_object hahead (by decide), hfields]
    rfl

theorem readItems_prettyItems : ∀ (items : List Json) (depth fuel : Nat) (rest : List Char),
    items ≠ [] → (prettyItems depth true items).length ≤ fuel →
      readItems fuel (prettyItems depth true items ++ rest) = some (items, rest)
  | [], _, _, _, hne, _ => absurd rfl hne
  | item :: items, depth, 0, rest, _, hfuel => by
    simp [prettyItems, newLine] at hfuel
  | item :: items, depth, fuel + 1, rest, _, hfuel => by
    have hlength : (prettyChars (depth + 1) item).length + (prettyItems depth false items).length ≤
        fuel := by
      simp only [prettyItems, newLine, if_true, List.nil_append, List.length_append,
        List.length_cons] at hfuel
      omega
    have hitem := readValue_prettyChars item (depth + 1) fuel _ (by omega)
      (endsNumber_prettyItems depth items rest)
    rw [← skipBlanks_prettyItems] at hitem
    cases items with
    | nil =>
      refine readItems_last hitem ?_
      simp only [prettyItems, Bool.false_eq_true, if_false, List.append_assoc, skipBlanks_newLine]
      exact skipBlanks_of_not_isBlank rfl rest
    | cons next items =>
      rw [prettyItems_eq_comma] at hitem hlength
      have hitems := readItems_prettyItems (next :: items) depth fuel rest (List.cons_ne_nil _ _)
        (Nat.le_trans (Nat.le_succ _) (Nat.le_trans (Nat.le_add_left _ _) hlength))
      exact readItems_next hitem (skipBlanks_of_not_isBlank rfl _) hitems

theorem readFields_prettyFields : ∀ (fields : List (Content × Json)) (depth fuel : Nat)
    (rest : List Char), fields ≠ [] → (prettyFields depth true fields).length ≤ fuel →
      readFields fuel (prettyFields depth true fields ++ rest) = some (fields, rest)
  | [], _, _, _, hne, _ => absurd rfl hne
  | field :: fields, depth, 0, rest, _, hfuel => by
    simp [prettyFields, newLine] at hfuel
  | (key, value) :: fields, depth, fuel + 1, rest, _, hfuel => by
    have hlength : (prettyChars (depth + 1) value).length +
        (prettyFields depth false fields).length ≤ fuel := by
      simp only [prettyFields, prettyField, newLine, if_true, List.nil_append, List.length_append,
        List.length_cons] at hfuel
      omega
    have hvalue := readValue_prettyChars value (depth + 1) fuel _ (by omega)
      (endsNumber_prettyFields depth fields rest)
    obtain ⟨literal, hliteral, hkey⟩ := readContent_contentChars key
    have hahead := skipBlanks_prettyFields depth key value fields rest
    rw [hliteral, List.cons_append] at hahead
    have hcolon (cs : List Char) : skipBlanks (':' :: cs) = ':' :: cs :=
      skipBlanks_of_not_isBlank rfl cs
    rw [← skipBlanks_prettyChars] at hvalue
    have hblank (cs : List Char) : skipBlanks (' ' :: cs) = skipBlanks cs := rfl
    cases fields with
    | nil =>
      refine readFields_last hahead (hkey _) (hcolon _) ((hblank _).symm ▸ hvalue) ?_
      simp only [prettyFields, Bool.false_eq_true, if_false, List.append_assoc, skipBlanks_newLine]
      exact skipBlanks_of_not_isBlank rfl rest
    | cons next fields =>
      rw [prettyFields_eq_comma] at hvalue hlength hahead
      have hfields := readFields_prettyFields (next :: fields) depth fuel rest
        (List.cons_ne_nil _ _)
        (Nat.le_trans (Nat.le_succ _) (Nat.le_trans (Nat.le_add_left _ _) hlength))
      exact readFields_next hahead (hkey _) (hcolon _) ((hblank _).symm ▸ hvalue)
        (skipBlanks_of_not_isBlank rfl _) hfields

end

/-! ### Documents -/

theorem read?_pretty (d : Json) : read? d.pretty = some d := by
  have hread := readValue_prettyChars d 0 ((d.prettyChars 0).length + 1) [] (Nat.le_succ _)
    (by rintro c ⟨⟩)
  have hahead := skipBlanks_prettyChars 0 d []
  rw [List.append_nil] at hread hahead
  have hdone : skipBlanks [] = [] := rfl
  simp only [read?, pretty, String.toList_ofList, hahead, hread, hdone, List.isEmpty_nil, if_true]

end Json
end Interleave
