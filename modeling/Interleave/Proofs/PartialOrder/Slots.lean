import Mathlib.Data.List.Nodup
import Mathlib.Data.List.Perm.Subperm
import Interleave.Proofs.PartialOrder.Branches

/-!
# Interleave.Proofs.PartialOrder.Slots

The table of the units that partial-order search knows. It only grows at its end, so that a slot
stands for one unit for good, and a set of slots for one set of units.

* `trackAll_known`: units of a list that is not too long all get slots.
* `standsFor_of_trackAll`: the set of enabled units that is formed stands for them.
* `SlotSet.StandsFor.unique`: the set of the slots of given units does not depend on when it is
  made.
-/

namespace Interleave

namespace SlotSet

/-- The set consists of the slots of the given units, which all have one. -/
structure StandsFor (units ids : List UnitId) (set : SlotSet) : Prop where
  contains : ∀ slot, set.contains slot = true ↔ ∃ u ∈ ids, units[slot]? = some u
  known : ∀ u ∈ ids, u ∈ units

theorem StandsFor.grow {units units' ids : List UnitId} {set : SlotSet}
    (h : StandsFor units ids set) (hgrow : units <+: units') (hnodup : units'.Nodup) :
    StandsFor units' ids set := by
  obtain ⟨new, rfl⟩ := hgrow
  refine ⟨fun slot => (h.contains slot).trans ?_, fun u hu => List.mem_append_left _ (h.known u hu)⟩
  refine exists_congr fun u => and_congr_right fun hu => ?_
  constructor
  · intro hslot
    rw [List.getElem?_append_left (List.getElem?_eq_some_iff.1 hslot).1]
    exact hslot
  · intro hslot
    obtain ⟨other, hother⟩ := List.getElem?_of_mem (h.known u hu)
    have hother' : (units ++ new)[other]? = some u := by
      rw [List.getElem?_append_left (List.getElem?_eq_some_iff.1 hother).1]
      exact hother
    have heq : slot = other :=
      (List.getElem?_inj (List.getElem?_eq_some_iff.1 hslot).1 hnodup).1 (hslot.trans hother'.symm)
    rw [heq]
    exact hother

theorem StandsFor.unique {units units' ids : List UnitId} {set set' : SlotSet}
    (h : StandsFor units ids set) (h' : StandsFor units' ids set') (hgrow : units <+: units')
    (hnodup : units'.Nodup) : set = set' :=
  ext_contains fun slot => ((h.grow hgrow hnodup).contains slot).trans (h'.contains slot).symm

end SlotSet

namespace PartialOrder

/-- The units that have a slot, in the order of the slots. -/
def units (s : PartialOrder) : List UnitId := s.tracked.map (·.unit)

theorem lt_length_tracked {s : PartialOrder} {slot : Nat} {u : UnitId}
    (hslot : s.units[slot]? = some u) : slot < s.tracked.length := by
  have hlt := (List.getElem?_eq_some_iff.1 hslot).1
  rwa [units, List.length_map] at hlt

/-- Only given units have slots, and none has two. -/
structure Knows (all : List UnitId) (s : PartialOrder) : Prop where
  nodup : s.units.Nodup
  known : ∀ u ∈ s.units, u ∈ all

/-- Further units have got slots; they have made no step yet. -/
def Joined (s t : PartialOrder) : Prop :=
  ∃ new : List Tracked, (∀ x ∈ new, x.clock = .zero) ∧ t = { s with tracked := s.tracked ++ new }

theorem Joined.refl (s : PartialOrder) : s.Joined s := ⟨[], by simp, by simp⟩

theorem Joined.trans {s t u : PartialOrder} (h : s.Joined t) (h' : t.Joined u) : s.Joined u := by
  obtain ⟨new, hnew, rfl⟩ := h
  obtain ⟨new', hnew', rfl⟩ := h'
  refine ⟨new ++ new', fun x hx => ?_, by simp⟩
  rcases List.mem_append.1 hx with hx | hx
  · exact hnew x hx
  · exact hnew' x hx

theorem Joined.units {s t : PartialOrder} (h : s.Joined t) : s.units <+: t.units := by
  obtain ⟨new, _, rfl⟩ := h
  exact ⟨new.map (·.unit), by simp [PartialOrder.units]⟩

@[simp] theorem units_commit (b : Branch) (target : Option UnitId) (ahead : List Fork)
    (s : PartialOrder) : (s.commit b target ahead).units = s.units := by
  refine List.ext_getElem? fun slot => ?_
  simp only [units, commit, List.getElem?_map, List.getElem?_modify]
  split
  · cases s.tracked[slot]? <;> rfl
  · cases s.tracked[slot]? <;> rfl

variable {all : List UnitId}

theorem slotOf?_eq_none {s : PartialOrder} {u : UnitId} (h : s.slotOf? u = none) :
    u ∉ s.units := by
  intro hu
  obtain ⟨x, hx, rfl⟩ := List.mem_map.1 hu
  have hnone := List.findIdx?_eq_none_iff.1 h x hx
  simp at hnone

theorem Knows.length_le {s : PartialOrder} (h : s.Knows all) :
    s.tracked.length ≤ all.length := by
  have hle := (h.nodup.subperm h.known).length_le
  simpa [PartialOrder.units] using hle

theorem track?_joined {s t : PartialOrder} {u : UnitId} {slot : Nat} (hnodup : s.units.Nodup)
    (h : s.track? u = some (slot, t)) :
    s.Joined t ∧ t.units.Nodup ∧ t.units[slot]? = some u ∧ ∀ w ∈ t.units, w ∈ s.units ∨ w = u := by
  unfold track? at h
  split at h
  · rename_i found hfound
    cases h
    obtain ⟨hlt, hunit, _⟩ := List.findIdx?_eq_some_iff_getElem.1 hfound
    refine ⟨.refl s, hnodup, ?_, fun w => .inl⟩
    rw [units, List.getElem?_map, List.getElem?_eq_getElem hlt]
    simpa using hunit
  · rename_i hslot
    split at h
    · cases h
    · cases h
      have hnew := slotOf?_eq_none hslot
      refine ⟨⟨[⟨u, .zero⟩], by simp, rfl⟩, ?_, by simp [units], by simp [units]⟩
      simp only [units, List.map_append, List.map_cons, List.map_nil]
      exact hnodup.append (List.nodup_singleton u) (by simpa [units] using hnew)

/-- Whether or not all units get slots, the table grows at its end. -/
theorem trackAll_joined (ids : List UnitId) : ∀ (s : PartialOrder) (found : SlotSet),
    s.units.Nodup → s.Joined (s.trackAll found ids).2 ∧ (s.trackAll found ids).2.units.Nodup ∧
      ((s.trackAll found ids).1 ≠ none → ∀ u ∈ ids, u ∈ (s.trackAll found ids).2.units) := by
  induction ids with
  | nil =>
    intro s found hnodup
    exact ⟨.refl s, hnodup, fun _ u hu => by cases hu⟩
  | cons u ids ih =>
    intro s found hnodup
    cases htrack : s.track? u with
    | none =>
      simp only [trackAll, htrack]
      exact ⟨.refl s, hnodup, fun h => absurd rfl h⟩
    | some p =>
      obtain ⟨slot, t⟩ := p
      obtain ⟨hjoined, hnodup', hslot, _⟩ := track?_joined hnodup htrack
      obtain ⟨hjoined', hnodup'', hunits⟩ := ih t (found.insert slot) hnodup'
      simp only [trackAll, htrack]
      refine ⟨hjoined.trans hjoined', hnodup'', fun hsome w hw => ?_⟩
      rcases List.mem_cons.1 hw with rfl | hw
      · exact hjoined'.units.subset (List.mem_of_getElem? hslot)
      · exact hunits hsome w hw

theorem track?_known {s : PartialOrder} {u : UnitId} (hall : all.length ≤ maxSlots)
    (h : s.Knows all) (hu : u ∈ all) :
    ∃ slot t, s.track? u = some (slot, t) ∧ s.Joined t ∧ t.Knows all ∧
      t.units[slot]? = some u := by
  obtain ⟨slot, t, htrack⟩ : ∃ slot t, s.track? u = some (slot, t) := by
    unfold track?
    cases hslot : s.slotOf? u with
    | some slot => exact ⟨slot, s, rfl⟩
    | none =>
      have hnodup : (u :: s.units).Nodup := List.nodup_cons.2 ⟨slotOf?_eq_none hslot, h.nodup⟩
      have hle := (hnodup.subperm fun w hw =>
        (List.mem_cons.1 hw).elim (fun heq => heq ▸ hu) (h.known w)).length_le
      have hroom : ¬ maxSlots ≤ s.tracked.length := by
        rw [List.length_cons, units, List.length_map] at hle
        omega
      exact ⟨_, _, if_neg hroom⟩
  obtain ⟨hjoined, hnodup, hslot, hunits⟩ := track?_joined h.nodup htrack
  exact ⟨slot, t, htrack, hjoined,
    ⟨hnodup, fun w hw => (hunits w hw).elim (h.known w) fun heq => heq ▸ hu⟩, hslot⟩

/-- Where all units get slots, the set gains those slots. -/
theorem trackAll_contains (ids : List UnitId) :
    ∀ {s t : PartialOrder} {found set : SlotSet}, s.units.Nodup → s.tracked.length ≤ maxSlots →
      s.trackAll found ids = (some set, t) → ∀ slot, set.contains slot = true ↔
        found.contains slot = true ∨ ∃ u ∈ ids, t.units[slot]? = some u := by
  induction ids with
  | nil =>
    intro s t found set _ _ h slot
    cases h
    simp
  | cons u ids ih =>
    intro s t found set hnodup hslots h other
    cases htrack : s.track? u with
    | none =>
      simp only [trackAll, htrack] at h
      cases h
    | some p =>
      obtain ⟨slot, s'⟩ := p
      simp only [trackAll, htrack] at h
      obtain ⟨_, hnodup', hslot', _⟩ := track?_joined hnodup htrack
      have hslots' := (track?_spec htrack).1.slots hslots
      obtain ⟨⟨new, hnew⟩, hnodup'', _⟩ :=
        (trackAll_joined ids s' (found.insert slot) hnodup').imp_left Joined.units
      rw [h] at hnew hnodup''
      have hlt : slot < s'.units.length := (List.getElem?_eq_some_iff.1 hslot').1
      have hslot : t.units[slot]? = some u := by
        rw [← hnew, List.getElem?_append_left hlt]
        exact hslot'
      have hmax : slot < maxSlots := Nat.lt_of_lt_of_le (lt_length_tracked hslot') hslots'
      rw [ih hnodup' hslots' h, SlotSet.contains_insert, List.exists_mem_cons_iff, or_assoc]
      refine or_congr_right (or_congr_left ⟨?_, fun hother => ⟨?_, hmax⟩⟩)
      · rintro ⟨rfl, _⟩
        exact hslot
      · exact (List.getElem?_inj (List.getElem?_eq_some_iff.1 hother).1 hnodup'').1
          (hother.trans hslot.symm)

/-- The set of enabled units stands for them, whenever it is formed. -/
theorem standsFor_of_trackAll {ids : List UnitId} {s t : PartialOrder} {set : SlotSet}
    (hnodup : s.units.Nodup) (hslots : s.tracked.length ≤ maxSlots)
    (h : s.trackAll .empty ids = (some set, t)) : SlotSet.StandsFor t.units ids set := by
  obtain ⟨_, _, hunits⟩ := trackAll_joined ids s .empty hnodup
  rw [h] at hunits
  refine ⟨fun slot => ?_, hunits (by simp)⟩
  rw [trackAll_contains ids hnodup hslots h]
  simp

/-- Units among the known ones all get slots. -/
theorem trackAll_known (hall : all.length ≤ maxSlots) (ids : List UnitId) :
    ∀ (s : PartialOrder) (found : SlotSet), s.Knows all → (∀ u ∈ ids, u ∈ all) →
      ∃ set t, s.trackAll found ids = (some set, t) ∧ s.Joined t ∧ t.Knows all := by
  induction ids with
  | nil =>
    intro s found h _
    exact ⟨found, s, rfl, .refl s, h⟩
  | cons u ids ih =>
    intro s found h hids
    obtain ⟨slot, t, htrack, hjoined, hknows, _⟩ := track?_known hall h (hids u List.mem_cons_self)
    obtain ⟨set, t', htrackAll, hjoined', hknows'⟩ := ih t (found.insert slot) hknows
      fun w hw => hids w (List.mem_cons_of_mem _ hw)
    exact ⟨set, t', by rw [trackAll, htrack]; exact htrackAll, hjoined.trans hjoined', hknows'⟩

theorem trackAll_standsFor (hall : all.length ≤ maxSlots) {ids : List UnitId} {s : PartialOrder}
    (h : s.Knows all) (hids : ∀ u ∈ ids, u ∈ all) :
    ∃ set t, s.trackAll .empty ids = (some set, t) ∧ s.Joined t ∧ t.Knows all ∧
      SlotSet.StandsFor t.units ids set := by
  obtain ⟨set, t, htrack, hjoined, hknows⟩ := trackAll_known hall ids s .empty h hids
  exact ⟨set, t, htrack, hjoined, hknows,
    standsFor_of_trackAll h.nodup (Nat.le_trans h.length_le hall) htrack⟩

end PartialOrder
end Interleave
