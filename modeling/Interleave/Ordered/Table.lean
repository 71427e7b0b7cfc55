/-!
# Interleave.Ordered.Table

Finite maps kept as a list of entries in strictly ascending order of keys. A table has one
representation, so equal contents are equal tables, and its entries are listed in key order.
`update` is the one way to write: it puts the value computed from the old one, if there is one.
`get?_update` says what can be read afterwards.
-/

namespace Interleave
namespace Table

variable {α : Type} {β : Type} [Ord α]

/-- The entries with the value at `key` replaced by `f` of the old one, or put in its place. -/
def updateEntries (key : α) (f : Option β → β) : List (α × β) → List (α × β)
  | [] => [(key, f none)]
  | (a, b) :: rest =>
    match compare key a with
    | .lt => (key, f none) :: (a, b) :: rest
    | .eq => (a, f (some b)) :: rest
    | .gt => (a, b) :: updateEntries key f rest

/-- The first entry of a list is below all others, and so on down the list. -/
def Ascending (entries : List (α × β)) : Prop :=
  entries.Pairwise fun x y => compare x.1 y.1 = .lt

theorem key_of_mem_updateEntries {key : α} {f : Option β → β} {x : α × β} :
    ∀ {entries : List (α × β)}, x ∈ updateEntries key f entries →
      x.1 = key ∨ ∃ y ∈ entries, x.1 = y.1
  | [], h => by simp [updateEntries] at h; exact .inl (by rw [h])
  | (a, b) :: rest, h => by
    unfold updateEntries at h
    split at h
    · simp only [List.mem_cons] at h
      rcases h with rfl | rfl | h
      · exact .inl rfl
      · exact .inr ⟨_, List.mem_cons_self, rfl⟩
      · exact .inr ⟨x, List.mem_cons_of_mem _ h, rfl⟩
    · simp only [List.mem_cons] at h
      rcases h with rfl | h
      · exact .inr ⟨(a, b), List.mem_cons_self, rfl⟩
      · exact .inr ⟨x, List.mem_cons_of_mem _ h, rfl⟩
    · simp only [List.mem_cons] at h
      rcases h with rfl | h
      · exact .inr ⟨(a, b), List.mem_cons_self, rfl⟩
      · rcases key_of_mem_updateEntries h with h | ⟨y, hy, h⟩
        · exact .inl h
        · exact .inr ⟨y, List.mem_cons_of_mem _ hy, h⟩

theorem ascending_updateEntries [Std.TransOrd α] {key : α} {f : Option β → β} :
    ∀ {entries : List (α × β)}, Ascending entries → Ascending (updateEntries key f entries)
  | [], _ => by simp [updateEntries, Ascending]
  | (a, b) :: rest, h => by
    have ha : ∀ x ∈ rest, compare a x.1 = .lt := (List.pairwise_cons.1 h).1
    have hr : Ascending rest := (List.pairwise_cons.1 h).2
    unfold updateEntries
    split
    · rename_i hlt
      refine List.pairwise_cons.2 ⟨?_, h⟩
      intro x hx
      rcases List.mem_cons.1 hx with rfl | hx
      · exact hlt
      · exact Std.TransCmp.lt_trans hlt (ha x hx)
    · exact List.pairwise_cons.2 ⟨ha, hr⟩
    · rename_i hgt
      refine List.pairwise_cons.2 ⟨?_, ascending_updateEntries hr⟩
      intro x hx
      rcases key_of_mem_updateEntries hx with h | ⟨y, hy, h⟩
      · show compare a x.1 = .lt
        rw [h]
        exact Std.OrientedCmp.gt_iff_lt.1 hgt
      · show compare a x.1 = .lt
        rw [h]
        exact ha y hy

/-- The value of the first entry at `key`. -/
def valueAt? (key : α) (entries : List (α × β)) : Option β :=
  (entries.find? fun entry => compare key entry.1 == .eq).map (·.2)

theorem valueAt?_eq_none_of_lt [Std.TransOrd α] {key : α} {a : α} {b : β}
    {rest : List (α × β)} (h : Ascending ((a, b) :: rest)) (hlt : compare key a = .lt) :
    valueAt? key ((a, b) :: rest) = none := by
  have ha : ∀ x ∈ rest, compare a x.1 = .lt := (List.pairwise_cons.1 h).1
  have hnone : ((a, b) :: rest).find? (fun entry => compare key entry.1 == .eq) = none := by
    rw [List.find?_eq_none]
    intro x hx
    rcases List.mem_cons.1 hx with rfl | hx
    · simp [hlt]
    · simp [Std.TransCmp.lt_trans hlt (ha x hx)]
  simp [valueAt?, hnone]

theorem valueAt?_updateEntries [Std.TransOrd α] {key k : α} {f : Option β → β} :
    ∀ {entries : List (α × β)}, Ascending entries →
      valueAt? k (updateEntries key f entries) =
        if compare k key = .eq then some (f (valueAt? key entries)) else valueAt? k entries
  | [], _ => by
    by_cases hk : compare k key = .eq <;> simp [updateEntries, valueAt?, hk]
  | (a, b) :: rest, h => by
    have ih : valueAt? k (updateEntries key f rest) =
        if compare k key = .eq then some (f (valueAt? key rest)) else valueAt? k rest :=
      valueAt?_updateEntries (List.pairwise_cons.1 h).2
    unfold updateEntries
    split
    · rename_i hlt
      rw [valueAt?_eq_none_of_lt h hlt]
      by_cases hk : compare k key = .eq <;> simp [valueAt?, List.find?_cons, hk]
    · rename_i heq
      have hka : compare k a = compare k key := (Std.TransCmp.congr_right heq).symm
      by_cases hk : compare k key = .eq <;> simp [valueAt?, hka, hk, heq]
    · rename_i hgt
      by_cases hk : compare k key = .eq
      · have hka : compare k a = .gt := by rw [Std.TransCmp.congr_left hk]; exact hgt
        simpa [valueAt?, List.find?_cons, hka, hgt, hk] using ih
      · by_cases hka : compare k a = .eq
        · simp [valueAt?, hka, hk]
        · simpa [valueAt?, List.find?_cons, hka, hk] using ih

end Table

variable {α : Type} {β : Type} [Ord α]

/-- A finite map with its entries in ascending order of keys. -/
structure Table (α : Type) (β : Type) [Ord α] where
  entries : List (α × β)
  ascending : Table.Ascending entries

namespace Table

def empty : Table α β := ⟨[], List.Pairwise.nil⟩

instance : EmptyCollection (Table α β) := ⟨empty⟩
instance : Inhabited (Table α β) := ⟨empty⟩

def get? (t : Table α β) (key : α) : Option β := valueAt? key t.entries

/-- Write `f` of the value at `key`, which is `none` where there is no entry yet. -/
def update [Std.TransOrd α] (t : Table α β) (key : α) (f : Option β → β) : Table α β :=
  ⟨updateEntries key f t.entries, ascending_updateEntries t.ascending⟩

@[simp] theorem get?_empty (key : α) : (∅ : Table α β).get? key = none := rfl

/-- An update changes the value at its key and no other. -/
theorem get?_update [Std.TransOrd α] (t : Table α β) (key k : α) (f : Option β → β) :
    (t.update key f).get? k = if compare k key = .eq then some (f (t.get? key)) else t.get? k :=
  valueAt?_updateEntries t.ascending

def insert [Std.TransOrd α] (t : Table α β) (key : α) (value : β) : Table α β :=
  t.update key fun _ => value

/-- Take the entries of `u` into `t`; `join` decides where both have one. -/
def merge [Std.TransOrd α] (join : β → β → β) (t u : Table α β) : Table α β :=
  u.entries.foldl (fun t entry => t.update entry.1 fun
    | none => entry.2
    | some old => join old entry.2) t

/-- The same keys with other values. -/
def mapValues {γ : Type} (f : β → γ) (t : Table α β) : Table α γ :=
  ⟨t.entries.map fun entry => (entry.1, f entry.2), by
    have h := t.ascending
    simpa [Ascending, List.pairwise_map] using h⟩

def keys (t : Table α β) : List α := t.entries.map (·.1)

def values (t : Table α β) : List β := t.entries.map (·.2)

def isEmpty (t : Table α β) : Bool := t.entries.isEmpty

def size (t : Table α β) : Nat := t.entries.length

theorem get?_mapValues {γ : Type} (f : β → γ) (t : Table α β) (key : α) :
    (t.mapValues f).get? key = (t.get? key).map f := by
  simp only [get?, mapValues, valueAt?, List.find?_map, Option.map_map]
  rfl

section Lawful

variable [Std.LawfulEqOrd α]

theorem get?_eq_some_iff {t : Table α β} {key : α} {value : β} :
    t.get? key = some value ↔ (key, value) ∈ t.entries := by
  obtain ⟨entries, h⟩ := t
  show valueAt? key entries = some value ↔ (key, value) ∈ entries
  induction entries with
  | nil => simp [valueAt?]
  | cons entry rest ih =>
    obtain ⟨a, b⟩ := entry
    by_cases hka : compare key a = .eq
    · have hkey : key = a := Std.LawfulEqCmp.compare_eq_iff_eq.1 hka
      have hnone : (key, value) ∉ rest := by
        intro hmem
        have hlt := (List.pairwise_cons.1 h).1 _ hmem
        rw [show compare a key = .eq by rw [hkey]; exact Std.ReflCmp.compare_self] at hlt
        cases hlt
      simp [valueAt?, hkey, hkey ▸ hnone, eq_comm]
    · have hkey : key ≠ a := fun h => hka (Std.LawfulEqCmp.compare_eq_iff_eq.2 h)
      have hskip : valueAt? key ((a, b) :: rest) = valueAt? key rest := by
        simp [valueAt?, hka]
      rw [hskip, ih (List.pairwise_cons.1 h).2]
      simp [hkey]

/-- A table is what can be read from it. -/
theorem ext_get? [Std.TransOrd α] {t u : Table α β} (h : ∀ key, t.get? key = u.get? key) :
    t = u := by
  have hirrefl : ∀ {a b : α}, compare a b = .lt → compare b a = .lt → False := by
    intro a b hab hba
    have haa := Std.TransCmp.lt_trans hab hba
    rw [show compare a a = .eq from Std.ReflCmp.compare_self] at haa
    cases haa
  have hnodup : ∀ v : Table α β, v.entries.Nodup := by
    refine fun v => v.ascending.imp ?_
    rintro x _ hlt rfl
    exact hirrefl hlt hlt
  have hperm : t.entries.Perm u.entries := by
    refine (List.perm_ext_iff_of_nodup (hnodup t) (hnodup u)).2 fun (key, value) => ?_
    rw [← get?_eq_some_iff, h, get?_eq_some_iff]
  have hentries : t.entries = u.entries :=
    hperm.eq_of_pairwise (fun _ _ _ _ hab hba => (hirrefl hab hba).elim) t.ascending u.ascending
  obtain ⟨entries, _⟩ := t
  obtain ⟨_, _⟩ := u
  cases hentries
  rfl

/-- What one table has is kept, and what both have is joined. -/
theorem get?_merge [Std.TransOrd α] (join : β → β → β) (t u : Table α β) (key : α) :
    (t.merge join u).get? key = Option.merge join (t.get? key) (u.get? key) := by
  have hfold : ∀ (entries : List (α × β)), Ascending entries → ∀ t : Table α β,
      (entries.foldl (fun t entry => t.update entry.1 fun
        | none => entry.2
        | some old => join old entry.2) t).get? key =
        Option.merge join (t.get? key) (valueAt? key entries) := by
    intro entries
    induction entries with
    | nil => intro _ t; cases h : t.get? key <;> simp [valueAt?, h]
    | cons entry rest ih =>
      intro h t
      obtain ⟨a, b⟩ := entry
      rw [List.foldl_cons, ih (List.pairwise_cons.1 h).2, get?_update]
      by_cases hka : key = a
      · have habsent : valueAt? a rest = none := by
          rw [valueAt?, List.find?_eq_none.2, Option.map_none]
          intro x hx
          simp [(List.pairwise_cons.1 h).1 x hx]
        rw [hka, habsent]
        cases t.get? a <;> simp [valueAt?]
      · have hne : compare key a ≠ .eq := fun heq => hka (Std.LawfulEqCmp.eq_of_compare heq)
        simp [valueAt?, hne]
  exact hfold u.entries u.ascending t

theorem mem_keys_iff {t : Table α β} {key : α} : key ∈ t.keys ↔ (t.get? key).isSome = true := by
  rw [Option.isSome_iff_exists]
  simp [keys, get?_eq_some_iff]

end Lawful

end Table

/-- A finite set, listed in ascending order. -/
abbrev Collection (α : Type) [Ord α] := Table α Unit

namespace Collection

def insert [Std.TransOrd α] (s : Collection α) (a : α) : Collection α :=
  if (s.get? a).isSome then s else s.update a fun _ => ()

def ofList [Std.TransOrd α] (as : List α) : Collection α :=
  as.foldl insert Table.empty

def union [Std.TransOrd α] (s t : Collection α) : Collection α :=
  t.keys.foldl insert s

def contains (s : Collection α) (a : α) : Bool := (s.get? a).isSome

def toList (s : Collection α) : List α := s.keys

@[simp] theorem contains_empty (a : α) : contains (∅ : Collection α) a = false := rfl

section Lawful

variable [Std.LawfulEqOrd α]

theorem mem_toList_iff {s : Collection α} {a : α} : a ∈ s.toList ↔ s.contains a = true :=
  Table.mem_keys_iff

variable [Std.TransOrd α]

theorem contains_insert {s : Collection α} {a b : α} :
    (s.insert a).contains b = true ↔ b = a ∨ s.contains b = true := by
  unfold insert
  split
  · rename_i h
    constructor
    · exact .inr
    · rintro (rfl | hb)
      · exact h
      · exact hb
  · simp only [contains, Table.get?_update, Std.LawfulEqCmp.compare_eq_iff_eq]
    by_cases hb : b = a <;> simp [hb]

theorem contains_foldl_insert {as : List α} {a : α} :
    ∀ {s : Collection α}, (as.foldl insert s).contains a = true ↔
      a ∈ as ∨ s.contains a = true := by
  induction as with
  | nil => simp
  | cons b as ih =>
    intro s
    rw [List.foldl_cons, ih, contains_insert, List.mem_cons]
    constructor
    · rintro (h | h | h)
      · exact .inl (.inr h)
      · exact .inl (.inl h)
      · exact .inr h
    · rintro ((h | h) | h)
      · exact .inr (.inl h)
      · exact .inl h
      · exact .inr (.inr h)

theorem contains_ofList {as : List α} {a : α} : (ofList as).contains a = true ↔ a ∈ as :=
  contains_foldl_insert.trans (by simp [contains, Table.get?, Table.empty, Table.valueAt?])

/-- A set is its members. -/
theorem ext_contains {s t : Collection α}
    (h : ∀ a, s.contains a = true ↔ t.contains a = true) : s = t := by
  refine Table.ext_get? fun a => ?_
  have ha := h a
  simp only [contains, Option.isSome_iff_exists] at ha
  cases hs : s.get? a with
  | none =>
    cases ht : t.get? a with
    | none => rfl
    | some value => simp [hs, ht] at ha
  | some value =>
    cases ht : t.get? a with
    | none => simp [hs, ht] at ha
    | some value' => rfl

theorem contains_union {s t : Collection α} {a : α} :
    (s.union t).contains a = true ↔ s.contains a = true ∨ t.contains a = true :=
  contains_foldl_insert.trans (by rw [or_comm]; exact or_congr_right mem_toList_iff)

end Lawful

end Collection

end Interleave
