import Interleave.Proofs.PartialOrder.Path

/-!
# Interleave.Proofs.PartialOrder.Clocks

What the clocks of partial-order search tell about the order of the steps. A clock is behind a step
when it counts fewer steps of the slot than the clock of the step does.

* `PartialOrder.Timed`: the clock of a unit that a step has not reached is behind the step.
* `Timed.commit`: each step of a run keeps this, as long as no unit makes so many steps that its
  count is no longer increased.
* `Timed.racesWith`: a step races with each earlier one that it is not independent of and that has
  not reached its unit.
-/

namespace Interleave

namespace Clock

@[simp] theorem get_zero (slot : Nat) : zero.get slot = 0 := by simp [zero, get]

theorem getD_tickAt (slot : Nat) : ∀ (ticks : List UInt32) (other : Nat),
    (tickAt slot ticks).getD other 0 =
      if other = slot then increase (ticks.getD slot 0) else ticks.getD other 0 := by
  induction slot with
  | zero =>
    intro ticks other
    cases ticks with
    | nil => cases other <;> simp [tickAt, increase]
    | cons n rest => cases other <;> simp [tickAt]
  | succ slot ih =>
    intro ticks other
    cases ticks with
    | nil =>
      cases other with
      | zero => simp [tickAt]
      | succ other =>
        have h := ih [] other
        simpa [tickAt] using h
    | cons n rest =>
      cases other with
      | zero => simp [tickAt]
      | succ other =>
        have h := ih rest other
        simpa [tickAt] using h

theorem get_tick {slot : Nat} (h : slot < maxSlots) (c : Clock) (other : Nat) :
    (c.tick slot).get other = if other = slot then increase (c.get slot) else c.get other := by
  simp only [tick, if_pos h]
  exact getD_tickAt slot c.ticks other

theorem toNat_max (m n : UInt32) : (max m n).toNat = max m.toNat n.toNat := by
  show (if m ≤ n then n else m).toNat = _
  split
  · rename_i h
    exact (Nat.max_eq_right (UInt32.le_iff_toNat_le.1 h)).symm
  · rename_i h
    rw [UInt32.le_iff_toNat_le] at h
    omega

theorem getD_mergeTicks : ∀ (ms ns : List UInt32) (slot : Nat),
    ((mergeTicks ms ns).getD slot 0).toNat =
      max (ms.getD slot 0).toNat (ns.getD slot 0).toNat := by
  intro ms
  induction ms with
  | nil => intro ns slot; cases ns <;> simp [mergeTicks]
  | cons m ms ih =>
    intro ns slot
    cases ns with
    | nil => simp [mergeTicks]
    | cons n ns =>
      cases slot with
      | zero => simp [mergeTicks, toNat_max]
      | succ slot =>
        have h := ih ns slot
        simpa [mergeTicks] using h

theorem getD_le_of_ticksLe : ∀ {ms ns : List UInt32}, ticksLe ms ns = true → ∀ slot,
    (ms.getD slot 0).toNat ≤ (ns.getD slot 0).toNat := by
  intro ms
  induction ms with
  | nil => intro ns _ slot; simp
  | cons m ms ih =>
    intro ns h slot
    cases ns with
    | nil =>
      simp only [ticksLe, Bool.and_eq_true, beq_iff_eq] at h
      cases slot with
      | zero => simp [h.1]
      | succ slot => simpa using ih h.2 slot
    | cons n ns =>
      simp only [ticksLe, Bool.and_eq_true, decide_eq_true_eq] at h
      cases slot with
      | zero => simpa using UInt32.le_iff_toNat_le.1 h.1
      | succ slot => simpa using ih h.2 slot

theorem ticksLe_of_getD_le : ∀ {ms ns : List UInt32},
    (∀ slot, (ms.getD slot 0).toNat ≤ (ns.getD slot 0).toNat) → ticksLe ms ns = true := by
  intro ms
  induction ms with
  | nil => intro ns _; rfl
  | cons m ms ih =>
    intro ns h
    have hfirst := h 0
    cases ns with
    | nil =>
      simp only [ticksLe, Bool.and_eq_true, beq_iff_eq]
      exact ⟨UInt32.toNat_inj.1 (by simpa using hfirst), ih fun slot => by simpa using h (slot + 1)⟩
    | cons n ns =>
      simp only [ticksLe, Bool.and_eq_true, decide_eq_true_eq]
      exact ⟨UInt32.le_iff_toNat_le.2 (by simpa using hfirst),
        ih fun slot => by simpa using h (slot + 1)⟩

/-- The steps of a slot that a clock counts. -/
def count (c : Clock) (slot : Nat) : Nat := (c.get slot).toNat

@[simp] theorem count_zero (slot : Nat) : zero.count slot = 0 := by simp [count]

/-- The largest count is not passed. -/
theorem count_tick_self {slot : Nat} (h : slot < maxSlots) (c : Clock) :
    (c.tick slot).count slot = min (c.count slot + 1) (2 ^ 32 - 1) := by
  unfold count
  rw [get_tick h, if_pos rfl, increase]
  split
  · rename_i hmax
    rw [hmax]
    decide
  · rename_i hne
    have hlt := (c.get slot).toNat_lt
    have hne : (c.get slot).toNat ≠ 4294967295 := fun heq => hne (UInt32.toNat_inj.1 heq)
    have hroom : (c.get slot).toNat + 1 < 2 ^ 32 := by omega
    rw [UInt32.toNat_add]
    exact (Nat.mod_eq_of_lt hroom).trans (by omega)

theorem count_tick_of_ne {slot other : Nat} (h : other ≠ slot) (c : Clock) :
    (c.tick slot).count other = c.count other := by
  rcases Nat.lt_or_ge slot maxSlots with hlt | hge
  · rw [count, get_tick hlt, if_neg h, count]
  · rw [tick, if_neg (by omega)]

theorem count_tick {slot : Nat} (h : slot < maxSlots) {c : Clock}
    (hc : c.count slot + 1 < 2 ^ 32) (other : Nat) :
    (c.tick slot).count other = if other = slot then c.count slot + 1 else c.count other := by
  split
  · rename_i heq
    rw [heq, count_tick_self h]
    omega
  · rename_i hne
    exact count_tick_of_ne hne c

theorem count_merge (c d : Clock) (slot : Nat) :
    (c.merge d).count slot = max (c.count slot) (d.count slot) :=
  getD_mergeTicks c.ticks d.ticks slot

theorem count_le_of_dominatedBy {c d : Clock} (h : c.dominatedBy d = true) (slot : Nat) :
    c.count slot ≤ d.count slot := getD_le_of_ticksLe h slot

theorem dominatedBy_of_count_le {c d : Clock} (h : ∀ slot, c.count slot ≤ d.count slot) :
    c.dominatedBy d = true := ticksLe_of_getD_le h

/-- Each count of joined clocks comes from one of them, and is at least the first. -/
theorem count_foldl_merge (events : List Event) (slot : Nat) : ∀ c : Clock,
    c.count slot ≤ (events.foldl (fun c e => c.merge e.clock) c).count slot ∧
    ((events.foldl (fun c e => c.merge e.clock) c).count slot = c.count slot ∨
      ∃ e ∈ events, (events.foldl (fun c e => c.merge e.clock) c).count slot =
        e.clock.count slot) := by
  induction events with
  | nil => intro c; exact ⟨Nat.le_refl _, .inl rfl⟩
  | cons e events ih =>
    intro c
    obtain ⟨hle, hcases⟩ := ih (c.merge e.clock)
    rw [count_merge] at hle hcases
    refine ⟨Nat.le_trans (Nat.le_max_left _ _) hle, ?_⟩
    rcases hcases with h | ⟨e', he', h⟩
    · rcases Nat.le_total (c.count slot) (e.clock.count slot) with hmax | hmax
      · exact .inr ⟨e, List.mem_cons_self, h.trans (Nat.max_eq_right hmax)⟩
      · exact .inl (h.trans (Nat.max_eq_left hmax))
    · exact .inr ⟨e', List.mem_cons_of_mem _ he', h⟩

end Clock

namespace PartialOrder

/-- The step that a choice made, if it scheduled a unit. -/
def stepOf? : Visit × Exchange → Option (Event × Access)
  | (.step _ ev, e) => e.access?.map fun a => (ev, a)
  | (.value _ _, _) => none

/-- The steps of a run, the first one first. -/
def steps (log : List (Visit × Exchange)) : List (Event × Access) := log.filterMap stepOf?

/-- The steps that one reaches along the steps after it. -/
abbrev reached (m : Event × Access) (after : List (Event × Access)) : Set Access :=
  influence {m.2} (after.map Prod.snd)

/-- What the clocks of the units, by slot, tell about the steps of a run. -/
structure Timed (s : PartialOrder) (steps : List (Event × Access)) : Prop where
  named : ∀ m ∈ steps, s.units[m.1.slot]? = some m.2.unit ∧ m.1.target = m.2.target
  made : ∀ slot, (s.lastClock slot).count slot ≤ steps.countP fun m => m.1.slot == slot
  last_le : ∀ slot other, (s.lastClock slot).count other ≤ (s.lastClock other).count other
  step_le : ∀ m ∈ steps, ∀ other, m.1.clock.count other ≤ (s.lastClock other).count other
  /-- The clock of a unit that a step has not reached is behind the step. -/
  last_behind : ∀ before m after, steps = before ++ m :: after → ∀ slot,
    (∀ u, s.units[slot]? = some u → ∀ d ∈ reached m after, d.unit ≠ u) →
    (s.lastClock slot).count m.1.slot < m.1.clock.count m.1.slot
  /-- The clock of a step that a step has not reached is behind that one. -/
  step_behind : ∀ before m after, steps = before ++ m :: after → ∀ n ∈ steps,
    n.2 ∉ reached m after → n.1.clock.count m.1.slot < m.1.clock.count m.1.slot

variable {s : PartialOrder} {log : List (Visit × Exchange)}

theorem Joined.lastClock {t : PartialOrder} (h : s.Joined t) (slot : Nat) :
    t.lastClock slot = s.lastClock slot := by
  obtain ⟨new, hnew, rfl⟩ := h
  simp only [PartialOrder.lastClock]
  rcases Nat.lt_or_ge slot s.tracked.length with hlt | hge
  · rw [List.getElem?_append_left hlt]
  · rw [List.getElem?_append_right hge, List.getElem?_eq_none hge]
    cases hx : new[slot - s.tracked.length]? with
    | none => rfl
    | some x => exact hnew x (List.mem_of_getElem? hx)

theorem Timed.joined {t : PartialOrder} {steps : List (Event × Access)} (h : s.Timed steps)
    (hjoined : s.Joined t) : t.Timed steps := by
  have hunits : ∀ {slot : Nat} {u : UnitId}, s.units[slot]? = some u → t.units[slot]? = some u := by
    intro slot u hslot
    obtain ⟨new, hnew⟩ := hjoined.units
    rw [← hnew, List.getElem?_append_left (List.getElem?_eq_some_iff.1 hslot).1]
    exact hslot
  refine ⟨fun m hm => ⟨hunits (h.named m hm).1, (h.named m hm).2⟩, ?_, ?_, ?_, ?_, h.step_behind⟩
  · simpa only [hjoined.lastClock] using h.made
  · simpa only [hjoined.lastClock] using h.last_le
  · simpa only [hjoined.lastClock] using h.step_le
  · intro before m after hsplit slot hslot
    rw [hjoined.lastClock]
    exact h.last_behind before m after hsplit slot fun u hu => hslot u (hunits hu)

theorem steps_append (log log' : List (Visit × Exchange)) :
    steps (log ++ log') = steps log ++ steps log' := List.filterMap_append

theorem steps_concat_value (log : List (Visit × Exchange)) (count chosen : UInt64)
    (e : Exchange) : steps (log ++ [(.value count chosen, e)]) = steps log := by
  rw [steps_append]
  exact List.append_nil _

theorem Timed.passValue {steps : List (Event × Access)} (h : s.Timed steps)
    (count chosen : UInt64) (ahead : List Fork) :
    (s.passValue count chosen ahead).Timed steps :=
  ⟨h.named, h.made, h.last_le, h.step_le, h.last_behind, h.step_behind⟩

theorem steps_map_mark (log : List (Visit × Exchange)) (slot : Nat) (target : Option UnitId)
    (pre : Clock) : steps (log.map fun m => (m.1.mark slot target pre, m.2)) = steps log := by
  unfold steps
  rw [List.filterMap_map]
  refine List.filterMap_congr fun m _ => ?_
  obtain ⟨v, e⟩ := m
  cases v <;> rfl

/-- The events that a step depends on are those of steps in the log. -/
theorem Recorded.mem_steps (h : s.Recorded log) {slot : Nat} {target : Option UnitId}
    {e : Event} (he : e ∈ s.passed.filterMap (Visit.eventBefore? slot target)) :
    ∃ m ∈ steps log, m.1 = e ∧ e.dependsOn slot target = true := by
  obtain ⟨v, hv, hev⟩ := List.mem_filterMap.1 he
  rw [h.passed_eq, List.mem_reverse] at hv
  obtain ⟨⟨v, x⟩, hm, rfl⟩ := List.mem_map.1 hv
  cases v with
  | value count chosen => cases hev
  | step b ev =>
    simp only [Visit.eventBefore?] at hev
    split at hev
    · rename_i hdepends
      cases hev
      cases h.tells _ hm with
      | @step _ _ _ a _ ha _ _ =>
        exact ⟨(e, a), List.mem_filterMap.2 ⟨_, hm, by simpa [stepOf?] using ha⟩, rfl, hdepends⟩
    · cases hev

theorem lastClock_commit {b : Branch} (target : Option UnitId) (ahead : List Fork)
    (hlt : b.chosen < s.tracked.length) (slot : Nat) :
    (s.commit b target ahead).lastClock slot =
      if slot = b.chosen then s.stepClock b.chosen target else s.lastClock slot := by
  have htracked : (s.commit b target ahead).tracked =
      s.tracked.modify b.chosen fun t => { t with clock := s.stepClock b.chosen target } := rfl
  simp only [lastClock, htracked, List.getElem?_modify]
  split
  · rename_i heq
    subst heq
    simp [List.getElem?_eq_getElem hlt]
  · rename_i hne
    rw [if_neg fun h => hne h.symm]
    cases s.tracked[slot]? <;> rfl

section Step

variable {slot : Nat} {a : Access}

/-- A step that another depends on is not independent of it. -/
theorem not_independent_of_dependsOn {m : Event × Access}
    (hm : m.1.target = m.2.target) (h : m.1.dependsOn slot a.target = true) :
    ¬ m.2.Independent a := by
  rintro ⟨_, hm', ha, hne⟩
  simp only [Event.dependsOn, Bool.and_eq_true] at h
  obtain ⟨_, htarget⟩ := h
  obtain ⟨t, ht⟩ := Option.ne_none_iff_exists'.1 hm'
  obtain ⟨t', ht'⟩ := Option.ne_none_iff_exists'.1 ha
  rw [hm, ht, ht'] at htarget
  rw [ht, ht'] at hne
  exact hne (congrArg some (by simpa using htarget))

theorem dependsOn_of_not_independent {m : Event × Access} (hm : m.1.target = m.2.target)
    (hslot : m.1.slot ≠ slot) (hunit : m.2.unit ≠ a.unit) (h : ¬ m.2.Independent a) :
    m.1.dependsOn slot a.target = true := by
  simp only [Event.dependsOn, Bool.and_eq_true, bne_iff_ne]
  refine ⟨hslot, ?_⟩
  rw [hm]
  cases ht : m.2.target with
  | none => rfl
  | some t =>
    cases ht' : a.target with
    | none => rfl
    | some t' =>
      by_contra hne
      exact h ⟨hunit, by simp [ht], by simp [ht'], by simpa [ht, ht'] using hne⟩

theorem Timed.slot_eq_iff {steps : List (Event × Access)} (h : s.Timed steps)
    (hnodup : s.units.Nodup) (hslot : s.units[slot]? = some a.unit) {m : Event × Access}
    (hm : m ∈ steps) : m.1.slot = slot ↔ m.2.unit = a.unit := by
  have hname := (h.named m hm).1
  constructor
  · intro heq
    rw [heq, hslot] at hname
    exact (Option.some.inj hname).symm
  · intro heq
    rw [heq] at hname
    exact (List.getElem?_inj (List.getElem?_eq_some_iff.1 hname).1 hnodup).1
      (hname.trans hslot.symm)

/-- The clock of the step counts one step more of its own slot, and of the others what the clocks
count that it joins. -/
theorem Timed.count_stepClock (h : s.Timed (steps log)) (hrecorded : s.Recorded log)
    (target : Option UnitId) (hlt : slot < maxSlots)
    (hroom : (s.lastClock slot).count slot + 1 < 2 ^ 32) :
    (s.stepClock slot target).count slot = (s.lastClock slot).count slot + 1 ∧
    ∀ other, other ≠ slot →
      (s.stepClock slot target).count other = (s.lastClock slot).count other ∨
      ∃ m ∈ steps log, m.1.dependsOn slot target = true ∧
        (s.stepClock slot target).count other = m.1.clock.count other := by
  let events := s.passed.filterMap (Visit.eventBefore? slot target)
  have hown : (events.foldl (fun c e => c.merge e.clock) (s.lastClock slot)).count slot =
      (s.lastClock slot).count slot := by
    obtain ⟨hle, heq | ⟨e, he, heq⟩⟩ := Clock.count_foldl_merge events slot (s.lastClock slot)
    · exact heq
    · obtain ⟨m, hm, rfl, _⟩ := hrecorded.mem_steps he
      have hstep := h.step_le m hm slot
      omega
  have htick := Clock.count_tick hlt (hown.symm ▸ hroom)
  refine ⟨?_, fun other hother => ?_⟩
  · show (Clock.tick _ slot).count slot = _
    rw [htick, if_pos rfl, hown]
  · have hcount : (s.stepClock slot target).count other =
        (events.foldl (fun c e => c.merge e.clock) (s.lastClock slot)).count other := by
      show (Clock.tick _ slot).count other = _
      rw [htick, if_neg hother]
    obtain ⟨_, heq | ⟨e, he, heq⟩⟩ := Clock.count_foldl_merge events other (s.lastClock slot)
    · exact .inl (hcount.trans heq)
    · obtain ⟨m, hm, rfl, hdepends⟩ := hrecorded.mem_steps he
      exact .inr ⟨m, hm, hdepends, hcount.trans heq⟩

/-- A step that is independent of all that an earlier step has reached is behind that one. -/
theorem Timed.stepClock_behind (h : s.Timed (steps log)) (hrecorded : s.Recorded log)
    (hslot : s.units[slot]? = some a.unit) (hlt : slot < maxSlots)
    (hroom : (s.lastClock slot).count slot + 1 < 2 ^ 32) {before after : List (Event × Access)}
    {m : Event × Access} (hsplit : steps log = before ++ m :: after)
    (hindep : ∀ d ∈ reached m after, d.Independent a) :
    (s.stepClock slot a.target).count m.1.slot < m.1.clock.count m.1.slot := by
  have hm : m ∈ steps log := by rw [hsplit]; simp
  have hself : m.2 ∈ reached m after := subset_influence _ _ rfl
  have hne : m.1.slot ≠ slot := fun heq =>
    (hindep m.2 hself).1 ((h.slot_eq_iff hrecorded.nodup hslot hm).1 heq)
  obtain ⟨_, hcases⟩ := h.count_stepClock hrecorded a.target hlt hroom
  rcases hcases m.1.slot hne with heq | ⟨n, hn, hdepends, heq⟩
  · rw [heq]
    refine h.last_behind before m after hsplit slot fun u hu d hd => ?_
    rw [hslot] at hu
    cases hu
    exact (hindep d hd).1
  · rw [heq]
    refine h.step_behind before m after hsplit n hn fun hreached => ?_
    exact not_independent_of_dependsOn (h.named n hn).2 hdepends (hindep n.2 hreached)

/-- A step races with each earlier one that it is not independent of and that has not reached its
unit. -/
theorem Timed.racesWith {steps : List (Event × Access)} (h : s.Timed steps)
    (hnodup : s.units.Nodup) (hslot : s.units[slot]? = some a.unit)
    {before after : List (Event × Access)} {m : Event × Access}
    (hsplit : steps = before ++ m :: after) (hindep : ¬ m.2.Independent a)
    (hreached : ∀ d ∈ reached m after, d.unit ≠ a.unit) :
    m.1.racesWith slot a.target (s.lastClock slot) = true := by
  have hm : m ∈ steps := by rw [hsplit]; simp
  have hunit : m.2.unit ≠ a.unit := hreached m.2 (subset_influence _ _ rfl)
  have hne : m.1.slot ≠ slot := fun heq => hunit ((h.slot_eq_iff hnodup hslot hm).1 heq)
  simp only [Event.racesWith, Bool.and_eq_true, Bool.not_eq_true', Bool.eq_false_iff]
  refine ⟨dependsOn_of_not_independent (h.named m hm).2 hne hunit hindep, fun hdominated => ?_⟩
  have hle := Clock.count_le_of_dominatedBy hdominated m.1.slot
  have hlt := h.last_behind before m after hsplit slot fun u hu d hd => by
    rw [hslot] at hu
    cases hu
    exact hreached d hd
  omega

/-- A place in a list with one more element is the new one or a place in the list. -/
theorem split_concat {α : Type} {l before after : List α} {x m : α}
    (h : l ++ [x] = before ++ m :: after) :
    (before = l ∧ m = x ∧ after = []) ∨
      ∃ after', after = after' ++ [x] ∧ l = before ++ m :: after' := by
  rcases List.eq_nil_or_concat after with rfl | ⟨after', y, rfl⟩
  · obtain ⟨hl, hx⟩ := List.append_inj' h rfl
    cases hx
    exact .inl ⟨hl.symm, rfl, rfl⟩
  · rw [List.concat_eq_append] at h ⊢
    have hassoc : before ++ m :: (after' ++ [y]) = (before ++ m :: after') ++ [y] := by simp
    rw [hassoc] at h
    obtain ⟨hl, hx⟩ := List.append_inj' h rfl
    cases hx
    exact .inr ⟨after', rfl, hl⟩

/-- What a step has reached stays so along one more step. -/
theorem reached_concat {m d : Event × Access} {after : List (Event × Access)} {x : Access}
    (hx : x ∈ reached m after) : x ∈ reached m (after ++ [d]) := by
  simp only [reached, List.map_append, influence_append]
  exact subset_influence _ _ hx

/-- A step that is not reached is independent of all that is. -/
theorem independent_of_not_reached {m n : Event × Access} {after : List (Event × Access)}
    (h : n.2 ∉ reached m (after ++ [n])) : ∀ d ∈ reached m after, d.Independent n.2 := by
  intro d hd
  by_contra hdepends
  refine h ?_
  simp only [reached, List.map_append, List.map_cons, List.map_nil]
  rw [influence_concat]
  exact .inr ⟨rfl, d, hd, hdepends⟩

/-- With a step the count of a slot in its own clock does not go back, and that is as far as the
clock of the step goes. -/
theorem Timed.counts_commit (h : s.Timed (steps log)) (hrecorded : s.Recorded log)
    {b : Branch} (target : Option UnitId) (ahead : List Fork) (hlt : b.chosen < s.tracked.length)
    (hroom : (s.lastClock b.chosen).count b.chosen + 1 < 2 ^ 32) (other : Nat) :
    (s.lastClock other).count other ≤
        ((s.commit b target ahead).lastClock other).count other ∧
      (s.stepClock b.chosen target).count other ≤
        ((s.commit b target ahead).lastClock other).count other := by
  have hslots : b.chosen < maxSlots := Nat.lt_of_lt_of_le hlt hrecorded.slots
  obtain ⟨hown, hjoin⟩ := h.count_stepClock hrecorded target hslots hroom
  rw [lastClock_commit target ahead hlt]
  rcases Nat.decEq other b.chosen with hne | rfl
  · rw [if_neg hne]
    refine ⟨Nat.le_refl _, ?_⟩
    rcases hjoin other hne with heq | ⟨m, hm, _, heq⟩
    · exact heq ▸ h.last_le b.chosen other
    · exact heq ▸ h.step_le m hm other
  · rw [if_pos rfl]
    exact ⟨by omega, Nat.le_refl _⟩

/-- After a further step the clock of a unit that a step has not reached is still behind it. -/
theorem Timed.last_behind_commit (h : s.Timed (steps log)) (hrecorded : s.Recorded log)
    {b : Branch} (hslot : s.units[b.chosen]? = some a.unit)
    (hroom : (s.lastClock b.chosen).count b.chosen + 1 < 2 ^ 32) (ahead : List Fork)
    {before after : List (Event × Access)} {m : Event × Access}
    (hsplit : steps log ++ [(⟨b.chosen, a.target, s.stepClock b.chosen a.target⟩, a)] =
      before ++ m :: after) (slot : Nat)
    (hunit : ∀ u, s.units[slot]? = some u → ∀ d ∈ reached m after, d.unit ≠ u) :
    ((s.commit b a.target ahead).lastClock slot).count m.1.slot < m.1.clock.count m.1.slot := by
  have hlt := lt_length_tracked hslot
  have hslots : b.chosen < maxSlots := Nat.lt_of_lt_of_le hlt hrecorded.slots
  rw [lastClock_commit a.target ahead hlt]
  rcases split_concat hsplit with ⟨_, rfl, rfl⟩ | ⟨after', rfl, hsplit'⟩
  · obtain ⟨hown, _⟩ := h.count_stepClock hrecorded a.target hslots hroom
    have hne : slot ≠ b.chosen := by
      rintro rfl
      exact hunit a.unit hslot a (subset_influence _ _ rfl) rfl
    have hle := h.last_le slot b.chosen
    rw [if_neg hne]
    show (s.lastClock slot).count b.chosen < (s.stepClock b.chosen a.target).count b.chosen
    omega
  · split
    · rename_i heq
      subst heq
      have hnot : a ∉ reached m (after' ++
          [(⟨b.chosen, a.target, s.stepClock b.chosen a.target⟩, a)]) :=
        fun hreached => hunit a.unit hslot a hreached rfl
      exact h.stepClock_behind hrecorded hslot hslots hroom hsplit'
        (independent_of_not_reached hnot)
    · exact h.last_behind before m after' hsplit' slot fun u hu d hd =>
        hunit u hu d (reached_concat hd)

/-- After a further step the clock of a step that a step has not reached is still behind it. -/
theorem Timed.step_behind_commit (h : s.Timed (steps log)) (hrecorded : s.Recorded log)
    {b : Branch} (hslot : s.units[b.chosen]? = some a.unit)
    (hroom : (s.lastClock b.chosen).count b.chosen + 1 < 2 ^ 32)
    {before after : List (Event × Access)} {m n : Event × Access}
    (hsplit : steps log ++ [(⟨b.chosen, a.target, s.stepClock b.chosen a.target⟩, a)] =
      before ++ m :: after)
    (hn : n ∈ steps log ++ [(⟨b.chosen, a.target, s.stepClock b.chosen a.target⟩, a)])
    (hreached : n.2 ∉ reached m after) : n.1.clock.count m.1.slot < m.1.clock.count m.1.slot := by
  have hslots : b.chosen < maxSlots :=
    Nat.lt_of_lt_of_le (lt_length_tracked hslot) hrecorded.slots
  rcases split_concat hsplit with ⟨_, rfl, rfl⟩ | ⟨after', rfl, hsplit'⟩
  · rcases List.mem_append.1 hn with hn | hn
    · obtain ⟨hown, _⟩ := h.count_stepClock hrecorded a.target hslots hroom
      have hle := h.step_le n hn b.chosen
      show n.1.clock.count b.chosen < (s.stepClock b.chosen a.target).count b.chosen
      omega
    · rw [List.mem_singleton.1 hn] at hreached
      exact absurd (subset_influence [] {a} rfl) hreached
  · rcases List.mem_append.1 hn with hn | hn
    · exact h.step_behind before m after' hsplit' n hn fun hd => hreached (reached_concat hd)
    · rw [List.mem_singleton.1 hn] at hreached ⊢
      exact h.stepClock_behind hrecorded hslot hslots hroom hsplit'
        (independent_of_not_reached hreached)

/-- A further step keeps what the clocks tell. -/
theorem Timed.commit (h : s.Timed (steps log)) (hrecorded : s.Recorded log) {b : Branch}
    (hslot : s.units[b.chosen]? = some a.unit)
    (hroom : (s.lastClock b.chosen).count b.chosen + 1 < 2 ^ 32) (ahead : List Fork) :
    (s.commit b a.target ahead).Timed
      (steps log ++ [(⟨b.chosen, a.target, s.stepClock b.chosen a.target⟩, a)]) := by
  have hlt := lt_length_tracked hslot
  have hcounts := h.counts_commit hrecorded a.target ahead hlt hroom
  constructor
  case named =>
    intro m hm
    rw [units_commit]
    rcases List.mem_append.1 hm with hm | hm
    · exact h.named m hm
    · rw [List.mem_singleton.1 hm]
      exact ⟨hslot, rfl⟩
  case made =>
    intro slot
    obtain ⟨hown, _⟩ := h.count_stepClock hrecorded a.target
      (Nat.lt_of_lt_of_le hlt hrecorded.slots) hroom
    have hmade := h.made slot
    rw [lastClock_commit a.target ahead hlt, List.countP_append]
    split
    · rename_i heq
      subst heq
      rw [hown, List.countP_singleton]
      simp only [beq_self_eq_true, if_true]
      omega
    · omega
  case last_le =>
    intro slot other
    rw [lastClock_commit a.target ahead hlt slot]
    split
    · exact (hcounts other).2
    · exact Nat.le_trans (h.last_le slot other) (hcounts other).1
  case step_le =>
    intro m hm other
    rcases List.mem_append.1 hm with hm | hm
    · exact Nat.le_trans (h.step_le m hm other) (hcounts other).1
    · rw [List.mem_singleton.1 hm]
      exact (hcounts other).2
  case last_behind =>
    intro before m after hsplit slot hunit
    rw [units_commit] at hunit
    exact h.last_behind_commit hrecorded hslot hroom ahead hsplit slot hunit
  case step_behind =>
    intro before m after hsplit n hn
    exact h.step_behind_commit hrecorded hslot hroom hsplit hn

end Step

/-- A run that has yet to make its first choice. -/
theorem timed_of_zero (h : ∀ slot, s.lastClock slot = .zero) : s.Timed [] := by
  refine ⟨by simp, fun slot => ?_, fun slot other => ?_, by simp, ?_, ?_⟩
  · rw [h]; simp
  · rw [h, h]
  · intro before m after hsplit
    simp at hsplit
  · intro before m after hsplit
    simp at hsplit

end PartialOrder
end Interleave
