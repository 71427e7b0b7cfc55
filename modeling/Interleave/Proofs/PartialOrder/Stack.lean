import Interleave.Proofs.PartialOrder.Iterations

/-!
# Interleave.Proofs.PartialOrder.Stack

The stack of partial-order search in any state that it can be in, whoever asks and whatever was
asked before: the choices made in this run, then those of the path that it has still to follow.
What was tried at a scheduling point was to be tried there, and its slots are those of known units.

* `Branch.Nested`: what widening, taking and moving on keep of a scheduling point.
* `PartialOrder.Layered`: the invariant of the stack, with one lemma per call.
* `trackAll_of_exhausted`: the slot that is scheduled has a unit.
* `PartialOrder.Whole`, `whole_of_reaches`: what follows for all slots that are looked up.
-/

namespace Interleave

/-- A scheduling point takes what it is to try and has tried nothing else; all slots enabled there
have been given. -/
structure Branch.Nested (slots : Nat) (b : Branch) : Prop where
  planned : b.toTry.contains b.chosen = true
  tried : ∀ slot, b.tried.contains slot = true → b.toTry.contains slot = true
  known : ∀ slot, b.enabled.contains slot = true → slot < slots

def Fork.Nested (slots : Nat) : Fork → Prop
  | .branch b => b.Nested slots
  | .value _ _ => True

theorem Fork.Nested.mono {m n : Nat} {f : Fork} (h : f.Nested m) (hmn : m ≤ n) : f.Nested n := by
  cases f with
  | value count chosen => trivial
  | branch b =>
    have h : b.Nested m := h
    exact ⟨h.planned, h.tried, fun slot hslot => Nat.lt_of_lt_of_le (h.known slot hslot) hmn⟩

/-- The slot that is taken next was to be tried. -/
theorem Fork.Nested.next {slots : Nat} {f f' : Fork} (h : f.Nested slots)
    (hnext : f.next? = some f') : f'.Nested slots := by
  cases f with
  | branch b =>
    have h : b.Nested slots := h
    simp only [Fork.next?, Option.map_eq_some_iff] at hnext
    obtain ⟨slot, hslot, rfl⟩ := hnext
    exact ⟨(SlotSet.contains_difference.1 (SlotSet.contains_of_first? hslot)).1, h.tried, h.known⟩
  | value count chosen =>
    simp only [Fork.next?] at hnext
    split at hnext
    · cases hnext
      trivial
    · cases hnext

theorem Branch.Nested.widen {slots : Nat} {b : Branch} (h : b.Nested slots) (slot : Nat) :
    (b.widen slot).Nested slots := by
  refine ⟨?_, fun other hother => ?_, fun other hother => ?_⟩
  · rw [Visit.widen_chosen]
    exact Visit.contains_toTry_widen h.planned
  · rw [Visit.widen_tried] at hother
    exact Visit.contains_toTry_widen (h.tried other hother)
  · rw [Visit.widen_enabled] at hother
    exact h.known other hother

theorem nested_mark {slots : Nat} {v : Visit} (h : v.fork.Nested slots) (slot : Nat)
    (target : Option UnitId) (pre : Clock) : (v.mark slot target pre).fork.Nested slots := by
  cases v with
  | value count chosen => trivial
  | step b e =>
    have h : b.Nested slots := h
    show (if e.racesWith slot target pre then b.widen slot else b).Nested slots
    split
    · exact h.widen slot
    · exact h

namespace PartialOrder

variable {s : PartialOrder}

/-- The choices made in this run, then those that it has still to follow. -/
def stack (s : PartialOrder) : List Fork := (s.passed.map Visit.fork).reverse ++ s.ahead

structure Layered (s : PartialOrder) : Prop where
  passed : ∀ v ∈ s.passed, v.fork.Nested s.tracked.length
  ahead : ∀ f ∈ s.ahead, f.Nested s.tracked.length

theorem layered_new (bound : Nat) : (new bound).Layered := ⟨nofun, nofun⟩

theorem Layered.joined {t : PartialOrder} (h : s.Layered) (hjoined : s.Joined t) : t.Layered := by
  obtain ⟨new, _, rfl⟩ := hjoined
  have hle : s.tracked.length ≤ (s.tracked ++ new).length := by simp
  exact ⟨fun v hv => (h.passed v hv).mono hle, fun f hf => (h.ahead f hf).mono hle⟩

/-- Taking a slot that is to be tried. -/
theorem nested_visitAt {slots : Nat} {b : Branch} (h : b.Nested slots) (target : Option UnitId) :
    (s.visitAt b target).fork.Nested slots := by
  show Branch.Nested slots { b with tried := b.tried.insert b.chosen }
  refine ⟨h.planned, fun slot hslot => ?_, h.known⟩
  rcases SlotSet.contains_insert.1 hslot with hslot | ⟨rfl, _⟩
  · exact h.tried slot hslot
  · exact h.planned

theorem Layered.commit {b : Branch} {ahead : List Fork} (h : s.Layered)
    (hb : b.Nested s.tracked.length) (hahead : ∀ f ∈ ahead, f.Nested s.tracked.length)
    (target : Option UnitId) : (s.commit b target ahead).Layered := by
  have hlength : (s.commit b target ahead).tracked.length = s.tracked.length := by
    simp [PartialOrder.commit]
  refine ⟨?_, ?_⟩
  · rw [passed_commit, hlength]
    intro v hv
    rcases List.mem_cons.1 hv with rfl | hv
    · exact nested_visitAt hb target
    · obtain ⟨w, hw, rfl⟩ := List.mem_map.1 hv
      exact nested_mark (h.passed w hw) _ _ _
  · rw [hlength]
    exact hahead

/-- The scheduling point here is that of the path, or a new one that tries an enabled slot. -/
theorem Layered.branchHere {enabled : SlotSet} {b : Branch} {ahead : List Fork} (h : s.Layered)
    (hsome : ∃ slot, enabled.contains slot = true)
    (hknown : ∀ slot, enabled.contains slot = true → slot < s.tracked.length)
    (hbranch : s.branchHere enabled = some (b, ahead)) :
    b.Nested s.tracked.length ∧ ∀ f ∈ ahead, f.Nested s.tracked.length := by
  have hahead := h.ahead
  unfold PartialOrder.branchHere at hbranch
  split at hbranch
  · cases hbranch
    obtain ⟨slot, hslot⟩ := hsome
    obtain ⟨first, hfirst⟩ := SlotSet.first?_isSome hslot
    have hmem : enabled.contains first = true := SlotSet.contains_of_first? hfirst
    rw [hfirst, Option.getD_some]
    refine ⟨⟨?_, by simp, hknown⟩, by simp⟩
    exact SlotSet.contains_insert.2 (.inr ⟨rfl, ((SlotSet.contains_iff _ _).1 hmem).1⟩)
  · rename_i hcons
    rw [hcons] at hahead
    split at hbranch
    · cases hbranch
      exact ⟨hahead _ List.mem_cons_self, fun f hf => hahead f (List.mem_cons_of_mem _ hf)⟩
    · cases hbranch
  · cases hbranch

theorem Layered.visitUnit (h : s.Layered) (hs : s.Sound) (hnodup : s.units.Nodup)
    (candidates : List Candidate) : (s.visitUnit candidates).2.Layered := by
  obtain ⟨_, hslots⟩ := trackAll_spec (enabledIds candidates) s .empty hs.slots
  obtain ⟨hjoined, _, _⟩ := trackAll_joined (enabledIds candidates) s .empty hnodup
  unfold PartialOrder.visitUnit
  split
  case h_1 t htrack =>
    rw [htrack] at hjoined
    exact h.joined hjoined
  case h_2 enabled t htrack =>
    have hset := standsFor_of_trackAll hnodup hs.slots htrack
    rw [htrack] at hjoined hslots
    have ht : t.Layered := h.joined hjoined
    have hknown : ∀ slot, enabled.contains slot = true → slot < t.tracked.length := by
      intro slot hslot
      obtain ⟨u, _, hu⟩ := (hset.contains slot).1 hslot
      simpa [PartialOrder.units] using (List.getElem?_eq_some_iff.1 hu).1
    split
    · exact ht
    · rename_i hne
      split
      · exact ht
      · rename_i b ahead hbranch
        split
        · exact ht
        · obtain ⟨_, _, hsome⟩ := hslots enabled rfl
          obtain ⟨hb, hahead⟩ := ht.branchHere (hsome (by simpa using hne)) hknown hbranch
          exact ht.commit hb hahead _

theorem Layered.visitValue (h : s.Layered) (count : UInt64) : (s.visitValue count).2.Layered := by
  have hpass : ∀ chosen, ∀ v ∈ Visit.value count chosen :: s.passed,
      v.fork.Nested s.tracked.length := by
    intro chosen v hv
    rcases List.mem_cons.1 hv with rfl | hv
    · trivial
    · exact h.passed v hv
  have hahead := h.ahead
  unfold PartialOrder.visitValue
  split
  · exact ⟨hpass 0, by simp⟩
  · rename_i recorded chosen ahead hcons
    rw [hcons] at hahead
    split
    · exact ⟨hpass chosen, fun f hf => hahead f (List.mem_cons_of_mem _ hf)⟩
    · exact h
  · exact h

theorem Layered.reply (h : s.Layered) (hs : s.Sound) (hnodup : s.units.Nodup) (r : Request) :
    (s.reply r).2.Layered := by
  cases r with
  | unit candidates current => exact h.visitUnit hs hnodup candidates
  | boolean max => exact h.visitValue 2
  | integer max => exact h.visitValue (alternativesOf max)

/-- Moving on changes one choice and drops those below it. -/
theorem Layered.prepare (h : s.Layered) : s.prepare.2.Layered := by
  refine ⟨by simp [PartialOrder.prepare], fun f hf => ?_⟩
  have hlength : s.prepare.2.tracked.length = s.tracked.length := by simp [PartialOrder.prepare]
  rw [hlength]
  refine forall_mem_backtrack (fun g hg => ?_) (fun _ _ hg hnext => Fork.Nested.next hg hnext) f
    (List.mem_reverse.1 hf)
  obtain ⟨v, hv, rfl⟩ := List.mem_map.1 hg
  exact h.passed v hv

theorem layered_of_reaches {bound : Nat} (h : PartialOrder.strategy.Reaches (new bound) s) :
    s.Layered := by
  induction h with
  | start => exact layered_new bound
  | answer r scene hreaches ih =>
    have hcoherent := coherent_of_reaches hreaches
    exact ih.reply hcoherent.sound hcoherent.nodup r
  | prepare _ ih => exact ih.prepare
  | reset _ _ => exact layered_new _

/-- A unit is found at the slot that it was given. -/
theorem slotOf?_eq_some_iff (hnodup : s.units.Nodup) {u : UnitId} {slot : Nat} :
    s.slotOf? u = some slot ↔ s.units[slot]? = some u := by
  have hfound : ∀ {slot}, s.slotOf? u = some slot → s.units[slot]? = some u := by
    intro slot hslot
    obtain ⟨hlt, hunit, _⟩ := List.findIdx?_eq_some_iff_getElem.1 hslot
    rw [units, List.getElem?_map, List.getElem?_eq_getElem hlt]
    simpa using hunit
  refine ⟨hfound, fun hslot => ?_⟩
  cases hother : s.slotOf? u with
  | none => exact absurd (List.mem_of_getElem? hslot) (slotOf?_eq_none hother)
  | some other =>
    rw [(List.getElem?_inj (List.getElem?_eq_some_iff.1 hslot).1 hnodup).1
      (hslot.trans (hfound hother).symm)]

/-- The slot that is scheduled has a unit, so a unit is refused as exhausted only where some enabled
unit gets no slot. -/
theorem trackAll_of_exhausted (hs : s.Sound) (hnodup : s.units.Nodup) {candidates : List Candidate}
    (h : (s.visitUnit candidates).1 = .error .exhausted) :
    (s.trackAll .empty (enabledIds candidates)).1 = none := by
  obtain ⟨hgrown, hslots⟩ := trackAll_spec (enabledIds candidates) s .empty hs.slots
  unfold PartialOrder.visitUnit at h
  split at h
  case h_1 t htrack => rw [htrack]
  case h_2 enabled t htrack =>
    have hset := standsFor_of_trackAll hnodup hs.slots htrack
    rw [htrack] at hgrown hslots
    split at h
    · cases h
    · rename_i hne
      split at h
      · cases h
      · rename_i b ahead hbranch
        split at h
        · rename_i hmissing
          obtain ⟨_, _, hsome⟩ := hslots enabled rfl
          obtain ⟨hb, henabled, _⟩ :=
            branchHere_spec (hgrown.sound hs) (hsome (by simpa using hne)) hbranch
          obtain ⟨u, _, hu⟩ := (hset.contains b.chosen).1 (henabled ▸ hb.chosen)
          rw [PartialOrder.units, List.getElem?_map, hmissing] at hu
          cases hu
        · cases h

/-- The stack and the table of the units fit: no choice has been made beyond the stack, at each
scheduling point what was tried was to be tried, what is to be tried is enabled, the slot taken is
enabled and each enabled slot has a unit and a clock, and units and slots go one to one. -/
structure Whole (s : PartialOrder) : Prop where
  depth : s.depth ≤ s.stack.length
  tried : ∀ b, Fork.branch b ∈ s.stack → ∀ slot, b.tried.contains slot = true →
    b.toTry.contains slot = true
  toTry : ∀ b, Fork.branch b ∈ s.stack → ∀ slot, b.toTry.contains slot = true →
    b.enabled.contains slot = true
  chosen : ∀ b, Fork.branch b ∈ s.stack → b.enabled.contains b.chosen = true
  known : ∀ b, Fork.branch b ∈ s.stack → ∀ slot, b.enabled.contains slot = true →
    ∃ t, s.tracked[slot]? = some t
  slots : ∀ u slot, s.slotOf? u = some slot ↔ ∃ t, s.tracked[slot]? = some t ∧ t.unit = u
  room : s.tracked.length ≤ maxSlots

theorem forall_mem_stack {Q : Fork → Prop} (hpassed : ∀ v ∈ s.passed, Q v.fork)
    (hahead : ∀ f ∈ s.ahead, Q f) : ∀ f ∈ s.stack, Q f := by
  intro f hf
  rcases List.mem_append.1 hf with hf | hf
  · obtain ⟨v, hv, rfl⟩ := List.mem_map.1 (List.mem_reverse.1 hf)
    exact hpassed v hv
  · exact hahead f hf

theorem whole_of_reaches {bound : Nat} (h : PartialOrder.strategy.Reaches (new bound) s) :
    s.Whole := by
  have hcoherent := coherent_of_reaches h
  have hsound : ∀ b, Fork.branch b ∈ s.stack → b.Sound := fun b hb =>
    forall_mem_stack hcoherent.sound.passed hcoherent.sound.ahead (.branch b) hb
  have hlayered := layered_of_reaches h
  have hnested : ∀ b, Fork.branch b ∈ s.stack → b.Nested s.tracked.length := fun b hb =>
    forall_mem_stack hlayered.passed hlayered.ahead (.branch b) hb
  refine ⟨?_, fun b hb => (hnested b hb).tried, fun b hb => (hsound b hb).toTry,
    fun b hb => (hsound b hb).chosen, fun b hb slot hslot => ?_, fun u slot => ?_,
    hcoherent.sound.slots⟩
  · rw [hcoherent.depth_eq, stack, List.length_append, List.length_reverse, List.length_map]
    exact Nat.le_add_right _ _
  · exact ⟨_, List.getElem?_eq_getElem ((hnested b hb).known slot hslot)⟩
  · rw [slotOf?_eq_some_iff hcoherent.nodup, units, List.getElem?_map, Option.map_eq_some_iff]

end PartialOrder
end Interleave
