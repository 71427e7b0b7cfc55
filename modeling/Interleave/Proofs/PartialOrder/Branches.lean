import Interleave.Proofs.Conformance
import Interleave.Proofs.PartialOrder.SlotSet

/-!
# Interleave.Proofs.PartialOrder.Branches

The scheduling points that partial-order search keeps on its path. Each was opened where certain
units were enabled, and chooses among those; since a point is met again only where the same slots
are enabled, the unit chosen is enabled there as well.

* `PartialOrder.Sound`: the invariant of the path.
* `trackAll_spec`: which units the slots of a set stand for.
* `partialOrder_conforms`: the search makes proper answers.
-/

namespace Interleave

/-- A scheduling point chooses among the units enabled there and is to try only those. -/
structure Branch.Sound (b : Branch) : Prop where
  chosen : b.enabled.contains b.chosen = true
  toTry : ∀ slot, b.toTry.contains slot = true → b.enabled.contains slot = true

def Fork.Sound : Fork → Prop
  | .branch b => b.Sound
  | .value _ _ => True

structure PartialOrder.Sound (s : PartialOrder) : Prop where
  slots : s.tracked.length ≤ maxSlots
  passed : ∀ v ∈ s.passed, v.fork.Sound
  ahead : ∀ f ∈ s.ahead, f.Sound

theorem PartialOrder.sound_new (bound : Nat) : (PartialOrder.new bound).Sound :=
  ⟨Nat.zero_le _, nofun, nofun⟩

theorem Fork.Sound.next {f f' : Fork} (h : f.Sound) (hnext : f.next? = some f') : f'.Sound := by
  cases f with
  | branch b =>
    simp only [Fork.next?, Option.map_eq_some_iff] at hnext
    obtain ⟨slot, hslot, rfl⟩ := hnext
    exact ⟨h.toTry slot (SlotSet.contains_difference.1 (SlotSet.contains_of_first? hslot)).1,
      h.toTry⟩
  | value count chosen =>
    simp only [Fork.next?] at hnext
    split at hnext
    · cases hnext
      trivial
    · cases hnext

theorem sound_of_mem_backtrack {path : List Fork} (h : ∀ f ∈ path, f.Sound) :
    ∀ f ∈ backtrack Fork.next? path, f.Sound :=
  forall_mem_backtrack h fun _ _ hf hnext => hf.next hnext

theorem Branch.Sound.widen {b : Branch} (h : b.Sound) (slot : Nat) : (b.widen slot).Sound := by
  unfold Branch.widen
  split
  · rename_i hslot
    refine ⟨h.chosen, fun other hother => ?_⟩
    rcases SlotSet.contains_insert.1 hother with hother | ⟨rfl, _⟩
    · exact h.toTry other hother
    · exact hslot
  · refine ⟨h.chosen, fun other hother => ?_⟩
    rcases SlotSet.contains_union.1 hother with hother | hother
    · exact h.toTry other hother
    · exact hother

theorem sound_widenRacing {slot : Nat} {target : Option UnitId} {pre : Clock}
    {passed : List Visit} (h : ∀ v ∈ passed, v.fork.Sound) :
    ∀ v ∈ PartialOrder.widenRacing slot target pre passed, v.fork.Sound := by
  intro v hv
  obtain ⟨w, hw, rfl⟩ := List.mem_map.1 hv
  have hsound := h w hw
  cases w with
  | step b e =>
    have hsound : b.Sound := hsound
    show (if e.racesWith slot target pre then b.widen slot else b).Sound
    split
    · exact hsound.widen slot
    · exact hsound
  | value count chosen => exact hsound

/-- Only the table of the units has grown. -/
structure PartialOrder.Grown (s t : PartialOrder) : Prop where
  slots : s.tracked.length ≤ maxSlots → t.tracked.length ≤ maxSlots
  kept : ∀ (slot : Nat) (x : Tracked), s.tracked[slot]? = some x → t.tracked[slot]? = some x
  rest : t = { s with tracked := t.tracked }

theorem PartialOrder.Grown.refl (s : PartialOrder) : s.Grown s := ⟨id, fun _ _ => id, rfl⟩

theorem PartialOrder.Grown.trans {s t u : PartialOrder} (h₁ : s.Grown t) (h₂ : t.Grown u) :
    s.Grown u := by
  refine ⟨fun h => h₂.slots (h₁.slots h), fun slot x h => h₂.kept _ _ (h₁.kept _ _ h), ?_⟩
  rw [h₂.rest, h₁.rest]

theorem PartialOrder.Grown.sound {s t : PartialOrder} (h : s.Grown t) (hs : s.Sound) :
    t.Sound := by
  obtain ⟨hslots, _, hrest⟩ := h
  have hpassed : t.passed = s.passed := by rw [hrest]
  have hahead : t.ahead = s.ahead := by rw [hrest]
  exact ⟨hslots hs.slots, by rw [hpassed]; exact hs.passed, by rw [hahead]; exact hs.ahead⟩

theorem track?_spec {s t : PartialOrder} {unit : UnitId} {slot : Nat}
    (h : s.track? unit = some (slot, t)) :
    s.Grown t ∧ ∃ x, t.tracked[slot]? = some x ∧ x.unit = unit := by
  unfold PartialOrder.track? at h
  split at h
  · rename_i found hfound
    cases h
    obtain ⟨hlt, hunit, _⟩ := List.findIdx?_eq_some_iff_getElem.1 hfound
    exact ⟨.refl s, _, List.getElem?_eq_getElem hlt, by simpa using hunit⟩
  · split at h
    · cases h
    · rename_i hroom
      cases h
      refine ⟨⟨fun _ => ?_, fun slot x hx => ?_, rfl⟩, ⟨unit, .zero⟩, by simp, rfl⟩
      · simp only [List.length_append, List.length_singleton]
        omega
      · exact List.getElem?_append_left (List.getElem?_eq_some_iff.1 hx).1 ▸ hx

/-- Each slot of the set stands for one of the units, unless it was there before. -/
theorem trackAll_spec (units : List UnitId) :
    ∀ (s : PartialOrder) (found : SlotSet), s.tracked.length ≤ maxSlots →
      s.Grown (s.trackAll found units).2 ∧
      ∀ slots, (s.trackAll found units).1 = some slots →
        (∀ slot, found.contains slot = true → slots.contains slot = true) ∧
        (∀ slot, slots.contains slot = true → found.contains slot = true ∨
          ∃ x, (s.trackAll found units).2.tracked[slot]? = some x ∧ x.unit ∈ units) ∧
        (units ≠ [] → ∃ slot, slots.contains slot = true) := by
  induction units with
  | nil =>
    intro s found _
    refine ⟨.refl s, fun slots hslots => ?_⟩
    cases hslots
    exact ⟨fun _ => id, fun _ => .inl, fun h => absurd rfl h⟩
  | cons unit units ih =>
    intro s found hlen
    cases htrack : s.track? unit with
    | none =>
      simp only [PartialOrder.trackAll, htrack]
      exact ⟨.refl s, fun slots hslots => by cases hslots⟩
    | some p =>
      obtain ⟨slot, t⟩ := p
      obtain ⟨hgrown, x, hx, hunit⟩ := track?_spec htrack
      obtain ⟨hgrown', hrest⟩ := ih t (found.insert slot) (hgrown.slots hlen)
      simp only [PartialOrder.trackAll, htrack]
      refine ⟨hgrown.trans hgrown', fun slots hslots => ?_⟩
      obtain ⟨hkept, horigin, _⟩ := hrest slots hslots
      have hlt : slot < maxSlots :=
        Nat.lt_of_lt_of_le (List.getElem?_eq_some_iff.1 hx).1 (hgrown.slots hlen)
      refine ⟨fun other h => hkept other (SlotSet.contains_insert.2 (.inl h)), ?_, ?_⟩
      · intro other hother
        rcases horigin other hother with h | ⟨y, hy, hmem⟩
        · rcases SlotSet.contains_insert.1 h with h | ⟨rfl, _⟩
          · exact .inl h
          · exact .inr ⟨x, hgrown'.kept _ _ hx, by rw [hunit]; exact List.mem_cons_self⟩
        · exact .inr ⟨y, hy, List.mem_cons_of_mem _ hmem⟩
      · exact fun _ => ⟨slot, hkept slot (SlotSet.contains_insert.2 (.inr ⟨rfl, hlt⟩))⟩

theorem branchHere_spec {s : PartialOrder} {enabled : SlotSet} {b : Branch} {ahead : List Fork}
    (hs : s.Sound) (hsome : ∃ slot, enabled.contains slot = true)
    (h : s.branchHere enabled = some (b, ahead)) :
    b.Sound ∧ b.enabled = enabled ∧ ∀ f ∈ ahead, f.Sound := by
  have hahead := hs.ahead
  unfold PartialOrder.branchHere at h
  split at h
  · cases h
    obtain ⟨slot, hslot⟩ := hsome
    obtain ⟨first, hfirst⟩ := SlotSet.first?_isSome hslot
    have hmem : enabled.contains first = true := SlotSet.contains_of_first? hfirst
    rw [hfirst, Option.getD_some]
    refine ⟨⟨hmem, fun other hother => ?_⟩, rfl, by simp⟩
    rcases SlotSet.contains_insert.1 hother with h | ⟨rfl, _⟩
    · simp at h
    · exact hmem
  · rename_i b' ahead' hcons
    rw [hcons] at hahead
    split at h
    · rename_i henabled
      cases h
      exact ⟨hahead _ List.mem_cons_self, henabled,
        fun f hf => hahead f (List.mem_cons_of_mem _ hf)⟩
    · cases h
  · cases h

theorem commit_sound {s : PartialOrder} {b : Branch} {target : Option UnitId} {ahead : List Fork}
    (hs : s.Sound) (hb : b.Sound) (hahead : ∀ f ∈ ahead, f.Sound) :
    (s.commit b target ahead).Sound := by
  refine ⟨?_, ?_, hahead⟩
  · simpa [PartialOrder.commit] using hs.slots
  · intro v hv
    rcases List.mem_cons.1 hv with rfl | hv
    · exact ⟨hb.chosen, hb.toTry⟩
    · split at hv
      · exact hs.passed v hv
      · exact sound_widenRacing hs.passed v hv

theorem visitUnit_spec {s : PartialOrder} {candidates : List Candidate} (hs : s.Sound)
    (current : Option Candidate) :
    (s.visitUnit candidates).2.Sound ∧ Served s.depth (.unit candidates current)
      (s.visitUnit candidates).1 (s.visitUnit candidates).2.depth := by
  obtain ⟨hgrown, hslots⟩ := trackAll_spec (enabledIds candidates) s .empty hs.slots
  generalize htrack : s.trackAll .empty (enabledIds candidates) = tracked at hgrown hslots
  obtain ⟨found, t⟩ := tracked
  have ht : t.Sound := hgrown.sound hs
  have hrest : t = { s with tracked := t.tracked } := hgrown.rest
  have hdepth : s.depth = t.depth := by rw [hrest]
  rw [hdepth]
  simp only [PartialOrder.visitUnit, htrack]
  cases found with
  | none => exact ⟨ht, .exhausted rfl⟩
  | some enabled =>
    obtain ⟨_, horigin, hsome⟩ := hslots enabled rfl
    dsimp only
    split
    · rename_i hnothing
      exact ⟨ht, .quiescent hnothing⟩
    · rename_i hsomething
      have hne : enabledIds candidates ≠ [] := by simpa using hsomething
      split
      · exact ⟨ht, .refused rfl⟩
      · rename_i b ahead hbranch
        obtain ⟨hb, henabled, hahead⟩ := branchHere_spec ht (hsome hne) hbranch
        split
        · exact ⟨ht, .exhausted rfl⟩
        · rename_i x hx
          refine ⟨commit_sound ht hb hahead, .reply ?_⟩
          have hchosen := hb.chosen
          rw [henabled] at hchosen
          rcases horigin _ hchosen with h | ⟨y, hy, hmem⟩
          · simp at h
          · rw [hx] at hy
            cases hy
            exact hmem

theorem visitValue_sound {s : PartialOrder} {count : UInt64} (hs : s.Sound) :
    (s.visitValue count).2.Sound := by
  have hpass : ∀ (chosen : UInt64), ∀ v ∈ Visit.value count chosen :: s.passed, v.fork.Sound := by
    intro chosen v hv
    rcases List.mem_cons.1 hv with rfl | hv
    · trivial
    · exact hs.passed v hv
  have hahead := hs.ahead
  unfold PartialOrder.visitValue
  split
  · exact ⟨hs.slots, hpass 0, by simp⟩
  · rename_i recorded chosen ahead hcons
    rw [hcons] at hahead
    split
    · exact ⟨hs.slots, hpass chosen, fun f hf => hahead f (List.mem_cons_of_mem _ hf)⟩
    · exact hs
  · exact hs

theorem visitValue_served (s : PartialOrder) (count : UInt64) {r : Request} (f : UInt64 → r.Reply)
    (hf : ∀ n, r.Admits (f n)) :
    Served s.depth r ((s.visitValue count).1.map f) (s.visitValue count).2.depth := by
  unfold PartialOrder.visitValue
  split
  · exact .reply (hf 0)
  · split
    · exact .reply (hf _)
    · exact .refused rfl
  · exact .refused rfl

theorem partialOrder_conforms : PartialOrder.strategy.Conforms PartialOrder.Sound where
  answer r scene s hs := by
    show (s.reply r).2.Sound
    cases r with
    | unit candidates current => exact (visitUnit_spec hs current).1
    | boolean max => exact visitValue_sound hs
    | integer max => exact visitValue_sound hs
  prepare s hs := by
    refine ⟨by simpa [PartialOrder.strategy, PartialOrder.prepare] using hs.slots, by
      simp [PartialOrder.strategy, PartialOrder.prepare], fun f hf => ?_⟩
    refine sound_of_mem_backtrack (fun g hg => ?_) f (List.mem_reverse.1 hf)
    obtain ⟨v, hv, rfl⟩ := List.mem_map.1 hg
    exact hs.passed v hv
  reset s _ := PartialOrder.sound_new s.bound
  served r scene s hs := by
    show Served s.depth r (s.reply r).1 (s.reply r).2.depth
    cases r with
    | unit candidates current => exact (visitUnit_spec hs current).2
    | boolean max => exact visitValue_served s 2 _ fun _ => trivial
    | integer max =>
      have h := visitValue_served s (alternativesOf max) (r := .integer max) id fun _ => trivial
      rwa [Except.map_id] at h
  observed _ _ _ := rfl

end Interleave
