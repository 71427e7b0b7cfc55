import Mathlib.Data.List.Basic
import Mathlib.Data.Nat.Bitwise
import Interleave.Json.Buffered
import Interleave.Json.Fields

/-!
# Interleave.Proofs.Json.Records

Written structures, read field by field: each field of a record is found, and what a record of
words, texts and booleans holds can be held until it is known what it is.

* `Fields.of?_record`: the fields of a record that names each of them once.
* `Fields.of?_excerpt`: those of a document with only some of them, in any order and among others.
* `isReadable_record`: records of readable values.
* `Number.isReadable_word`: a word, read as a double, stays far below the greatest one.
-/

namespace Interleave

namespace Binary64

theorem roundHalfEven_le (n d : Nat) : roundHalfEven n d ≤ n + 1 := by
  have hquotient : n / d ≤ n := Nat.div_le_self n d
  simp only [roundHalfEven]
  split
  · omega
  split
  · omega
  split <;> omega

/-- The bound is coarse: a significand below `2 ^ 118` is scaled by at most `2 ^ 12`. -/
theorem ofNat_lt {n : Nat} (hn : n < 2 ^ 64) :
    (ofNat n).significand <<< (ofNat n).up < 2 ^ 130 := by
  rw [ofNat, ofRatio]
  split
  case isTrue => decide
  case isFalse hzero =>
    have hlog : n.log2 < 64 := (Nat.log2_lt (fun h => hzero (.inl h))).2 hn
    have hone : Nat.log2 1 = 0 := by decide
    simp only [hone]
    generalize hexponent : (if n <<< (-((n.log2 : Int) - (0 : Nat))).toNat <
      1 <<< ((n.log2 : Int) - (0 : Nat)).toNat then (n.log2 : Int) - (0 : Nat) - 53
      else (n.log2 : Int) - (0 : Nat) - 52) = exponent
    have hlow : -53 ≤ exponent := by split at hexponent <;> omega
    have hhigh : exponent ≤ 11 := by split at hexponent <;> omega
    have hscaled : n <<< (-exponent).toNat < 2 ^ 117 :=
      Nat.lt_of_lt_of_le (Nat.shiftLeft_lt hn) (Nat.pow_le_pow_right (by decide) (by omega))
    have hround := roundHalfEven_le (n <<< (-exponent).toNat) (1 <<< exponent.toNat)
    have hfits {significand up : Nat} (hsignificand : significand < 2 ^ 118) (hup : up ≤ 12) :
        significand <<< up < 2 ^ 130 :=
      Nat.lt_of_lt_of_le (Nat.shiftLeft_lt hsignificand)
        (Nat.pow_le_pow_right (by decide) (by omega))
    split
    · exact hfits (by simp only; decide) (by simp only; omega)
    · exact hfits (by simp only; omega) (by simp only; omega)

end Binary64

namespace Number

theorem isReadable_word (n : UInt64) : (unsigned n.toNat).isReadable = true := by
  have hn : n.toNat < UInt64.size := n.toNat_lt_size
  have hleading : leading n.toNat 0 = (n.toNat, 0) := by rw [leading, if_pos hn]
  simp only [isReadable, isReadableDecimal, hleading]
  split
  · rfl
  · have hone : Binary64.ofNat (Nat.pow 10 (0 : Int).toNat) = ⟨2 ^ 52, 0, 52⟩ := by decide
    have hfactor := Binary64.ofNat_lt hn
    rw [if_neg (by decide), hone]
    simp only [Binary64.productFits, decide_eq_true_eq, Nat.shiftLeft_zero]
    refine Nat.lt_of_lt_of_le (Nat.mul_lt_mul_of_pos_right hfactor (by decide)) ?_
    refine Nat.le_trans ?_ Nat.le_shiftLeft
    decide

end Number

theorem mapM_eq_some_map {α β : Type} {f : α → Option β} {g : α → β} {items : List α}
    (h : ∀ a ∈ items, f a = some (g a)) : items.mapM f = some (items.map g) := by
  induction items with
  | nil => rfl
  | cons a items ih =>
    rw [List.mapM_cons, h a List.mem_cons_self, ih fun b hb => h b (List.mem_cons_of_mem a hb)]
    rfl

namespace Json

@[simp] theorem word?_word (n : UInt64) : (word n).word? = some n := by
  simp [word, nat, word?, natBelow?, n.toNat_lt_size]

@[simp] theorem isReadable_word (levels : Nat) (n : UInt64) : (word n).isReadable levels = true :=
  Number.isReadable_word n

@[simp] theorem isReadable_text (levels : Nat) (s : String) : (text s).isReadable levels = true :=
  rfl

@[simp] theorem isReadable_bool (levels : Nat) (b : Bool) : (bool b).isReadable levels = true := rfl

theorem natBelow?_nat {bound n : Nat} (hn : n < bound) : (nat n).natBelow? bound = some n :=
  if_pos hn

@[simp] theorem bool?_bool (b : Bool) : (bool b).bool? = some b := rfl

@[simp] theorem text?_text (s : String) : (text s).text? = some s := rfl

namespace Fields

theorem valuesOf_map_some (name : String) (fields : List (String × Json)) :
    valuesOf name (fields.map fun field => (some field.1, field.2)) =
      (fields.filter fun field => field.1 == name).map (·.2) := by
  have hcomp : (fun field : Content × Json => field.1 == some name) ∘
      (fun field : String × Json => (some field.1, field.2)) = fun field => field.1 == name := by
    funext field
    simp
  rw [valuesOf, List.filter_map, hcomp, List.map_map]
  rfl

theorem filter_eq_nil_of_notMem {fields : List (String × Json)} {name : String}
    (h : name ∉ fields.map (·.1)) : (fields.filter fun field => field.1 == name) = [] := by
  refine List.filter_eq_nil_iff.2 fun field hfield heq => h ?_
  rw [← beq_iff_eq.1 heq]
  exact List.mem_map_of_mem hfield

theorem valuesOf_record {fields : List (String × Json)} (hnodup : (fields.map (·.1)).Nodup)
    {name : String} {value : Json} (hfield : (name, value) ∈ fields) :
    valuesOf name (fields.map fun field => (some field.1, field.2)) = [value] := by
  rw [valuesOf_map_some]
  induction fields with
  | nil => cases hfield
  | cons first fields ih =>
    obtain ⟨hfirst, hnodup⟩ := List.nodup_cons.1 hnodup
    rcases List.mem_cons.1 hfield with rfl | hfield
    · rw [List.filter_cons_of_pos (by simp), filter_eq_nil_of_notMem hfirst]
      rfl
    · have hne : first.1 ≠ name := by
        rintro rfl
        exact hfirst (List.mem_map.2 ⟨_, hfield, rfl⟩)
      rw [List.filter_cons_of_neg (by simpa using hne), ih hnodup hfield]

/-- Where no name repeats, each is found with its value, if there is one. -/
theorem of?_of_valuesOf {names : List String} {fields : List (String × Json)}
    (h : ∀ name ∈ names,
      (valuesOf name (fields.map fun field => (some field.1, field.2))).length ≤ 1) :
    of? names (.record fields) = some ⟨names.flatMap fun name =>
      (valuesOf name (fields.map fun field => (some field.1, field.2))).map (Prod.mk name),
      false⟩ := by
  have hnamed : (fields.map fun field => ((some field.1 : Content), field.2)).any (·.1.isNone) =
      false := by simp
  rw [record, of?, ofObject?, hnamed, if_neg (by simp), mapM_eq_some_map]
  · rfl
  · intro name hname
    have hone := h name hname
    generalize valuesOf name _ = values at hone ⊢
    match values, hone with
    | [], _ => rfl
    | [_], _ => rfl

theorem of?_record {names : List String} {fields : List (String × Json)}
    (hnames : fields.map (·.1) = names) (hnodup : names.Nodup) :
    of? names (.record fields) = some ⟨fields, false⟩ := by
  subst hnames
  have hvalues : ∀ field ∈ fields,
      valuesOf field.1 (fields.map fun field => (some field.1, field.2)) = [field.2] :=
    fun _ hfield => valuesOf_record hnodup hfield
  rw [of?_of_valuesOf (List.forall_mem_map.2 fun field hfield => by rw [hvalues field hfield]; rfl),
    List.flatMap_map, List.flatMap_congr fun field hfield => by rw [hvalues field hfield]]
  simp

/-- A document with some of the given fields, in any order and among fields of other names. -/
structure Excerpt (fields chosen document : List (String × Json)) : Prop where
  sublist : chosen.Sublist fields
  others : ∃ unknown : List (String × Json),
    (∀ field ∈ unknown, field.1 ∉ fields.map (·.1)) ∧ document.Perm (chosen ++ unknown)

theorem Excerpt.refl (fields : List (String × Json)) : Excerpt fields fields fields :=
  ⟨.refl _, [], nofun, by rw [List.append_nil]⟩

theorem valuesOf_excerpt {fields chosen document : List (String × Json)}
    (h : Excerpt fields chosen document) (hnodup : (fields.map (·.1)).Nodup) {name : String}
    {value : Json} (hfield : (name, value) ∈ fields) :
    valuesOf name (document.map fun field => (some field.1, field.2)) =
      if name ∈ chosen.map (·.1) then [value] else [] := by
  obtain ⟨unknown, hunknown, hperm⟩ := h.others
  have hothers : name ∉ unknown.map (·.1) := by
    intro hname
    obtain ⟨field, hmem, rfl⟩ := List.mem_map.1 hname
    exact hunknown field hmem (List.mem_map.2 ⟨_, hfield, rfl⟩)
  have hvalues := (hperm.filter fun field => field.1 == name).map (·.2)
  rw [List.filter_append, filter_eq_nil_of_notMem hothers, List.append_nil, ← valuesOf_map_some,
    ← valuesOf_map_some] at hvalues
  split
  case isTrue hshown =>
    obtain ⟨field, hmem, rfl⟩ := List.mem_map.1 hshown
    have hsame := valuesOf_record hnodup (h.sublist.subset hmem)
    rw [valuesOf_record hnodup hfield] at hsame
    rw [valuesOf_record ((h.sublist.map _).nodup hnodup) hmem, ← hsame] at hvalues
    exact List.perm_singleton.1 hvalues
  case isFalse hhidden =>
    rw [valuesOf_map_some name chosen, filter_eq_nil_of_notMem hhidden] at hvalues
    exact List.perm_nil.1 hvalues

theorem lookup_flatMap (values : String → List Json) (name : String) (names : List String) :
    (names.flatMap fun name => (values name).map (Prod.mk name)).lookup name =
      if name ∈ names then (values name).head? else none := by
  induction names with
  | nil => rfl
  | cons first names ih =>
    rw [List.flatMap_cons, List.lookup_append, ih]
    by_cases hname : name = first
    · subst hname
      cases values name <;> simp
    · have hfirst : ((values first).map (Prod.mk first)).lookup name = none :=
        List.lookup_eq_none_iff.2 (List.forall_mem_map.2 fun _ _ => by simpa using hname)
      simp [hfirst, hname]

/-- The known fields that an excerpt shows are found, the others are not. -/
theorem of?_excerpt {fields chosen document : List (String × Json)}
    (h : Excerpt fields chosen document) (hnodup : (fields.map (·.1)).Nodup) :
    ∃ f, of? (fields.map (·.1)) (.record document) = some f ∧ ∀ name value,
      (name, value) ∈ fields →
        f.get? name = if name ∈ chosen.map (·.1) then some value else none := by
  refine ⟨_, of?_of_valuesOf (List.forall_mem_map.2 fun field hfield => ?_),
    fun name value hfield => ?_⟩
  · rw [valuesOf_excerpt h hnodup hfield]
    split <;> simp
  · rw [get?, lookup_flatMap, if_pos (List.mem_map.2 ⟨_, hfield, rfl⟩),
      valuesOf_excerpt h hnodup hfield]
    split <;> rfl

end Fields

theorem isReadable_record {levels : Nat} {fields : List (String × Json)} (hlevels : 0 < levels)
    (hfields : ∀ field ∈ fields, field.2.isReadable (levels - 1) = true) :
    (record fields).isReadable levels = true := by
  have hall : ∀ fields : List (String × Json),
      (∀ field ∈ fields, field.2.isReadable (levels - 1) = true) →
      areReadableFields (levels - 1) (fields.map fun field => (some field.1, field.2)) = true := by
    intro fields
    induction fields with
    | nil => intro _; rfl
    | cons field fields ih =>
      intro h
      simp only [List.map_cons, areReadableFields, isReadableField, Option.isSome_some,
        Bool.true_and, h field List.mem_cons_self,
        ih fun other hother => h other (List.mem_cons_of_mem field hother)]
  simp only [record, isReadable, hlevels, decide_true, Bool.true_and, hall fields hfields]

end Json
end Interleave
