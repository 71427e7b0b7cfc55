import Mathlib.Logic.Relation
import Interleave.Proofs.PartialOrder.Races

/-!
# Interleave.Proofs.PartialOrder.Precedence

The order in which the steps of a run happen, told from the run alone: a step happens before a
later one if a chain of steps leads there, each two neighbours of which are by one unit or
dependent. The clocks of partial-order search stand for this order, which is nowhere built.

* `HappensBefore`: the order, over the positions of exchanges.
* `happensBefore_of_influence`: a step happens before all that it reaches.
* `PartialOrder.Leading`: the clock of a step is ahead of those of all steps before it.
* `PartialOrder.racesWith_iff`: a step races with the steps that it depends on and that happen
  before no step of its unit.
-/

namespace Interleave

/-- The exchange at a position makes a step. -/
def StepAt (es : List Exchange) (i : Nat) (a : Access) : Prop :=
  ∃ e, es[i]? = some e ∧ e.access? = some a

/-- Steps of two units that declare one target, or one of which declares none. -/
def Access.Dependent (a b : Access) : Prop :=
  a.unit ≠ b.unit ∧ (a.target = b.target ∨ a.target = none ∨ b.target = none)

/-- The order of the steps of one unit, and that of dependent steps. -/
def Precedes (es : List Exchange) (i j : Nat) : Prop :=
  i < j ∧ ∃ a b, StepAt es i a ∧ StepAt es j b ∧ (a.unit = b.unit ∨ a.Dependent b)

/-- A chain of steps leads from one position to a later one. -/
def HappensBefore (es : List Exchange) : Nat → Nat → Prop := Relation.TransGen (Precedes es)

/-- A new step depends on the one at a position, which happens before no step of its unit. -/
def RacesAt (es : List Exchange) (i : Nat) (new : Access) : Prop :=
  ∃ a, StepAt es i a ∧ a.Dependent new ∧
    ∀ j b, StepAt es j b → b.unit = new.unit → ¬ HappensBefore es i j

theorem Access.not_independent_iff {a b : Access} :
    ¬ a.Independent b ↔ a.unit = b.unit ∨ a.Dependent b := by
  unfold Access.Independent Access.Dependent
  by_cases hunit : a.unit = b.unit
  · simp [hunit]
  · by_cases ha : a.target = none
    · simp [hunit, ha]
    · by_cases hb : b.target = none
      · simp [hunit, hb]
      · simp [hunit, ha, hb]

theorem StepAt.lt_length {es : List Exchange} {i : Nat} {a : Access} (h : StepAt es i a) :
    i < es.length := by
  obtain ⟨e, he, _⟩ := h
  exact (List.getElem?_eq_some_iff.1 he).1

theorem StepAt.append {es : List Exchange} {i : Nat} {a : Access} (h : StepAt es i a)
    (fs : List Exchange) : StepAt (es ++ fs) i a := by
  obtain ⟨e, he, ha⟩ := h
  exact ⟨e, by rw [List.getElem?_append_left (List.getElem?_eq_some_iff.1 he).1, he], ha⟩

theorem stepAt_concat (es : List Exchange) {e : Exchange} {a : Access} (h : e.access? = some a) :
    StepAt (es ++ [e]) es.length a :=
  ⟨e, by simp, h⟩

theorem HappensBefore.append {es : List Exchange} {i j : Nat} (h : HappensBefore es i j)
    (fs : List Exchange) : HappensBefore (es ++ fs) i j :=
  Relation.TransGen.mono
    (fun _ _ ⟨hlt, a, b, ha, hb, horder⟩ => ⟨hlt, a, b, ha.append fs, hb.append fs, horder⟩) _ _ h

/-- A step reaches only what it happens before. -/
theorem happensBefore_of_influence (pre : List Exchange) {mid : List Exchange} {e : Exchange}
    {a : Access} (he : e.access? = some a) : ∀ {d : Access}, d ∈ influence {a} (accesses mid) →
      d = a ∨ ∃ j, StepAt (pre ++ e :: mid) j d ∧ HappensBefore (pre ++ e :: mid) pre.length j := by
  induction mid using List.reverseRecOn with
  | nil => exact fun h => .inl h
  | append_singleton mid f ih =>
    intro d hd
    have hassoc : pre ++ e :: (mid ++ [f]) = (pre ++ e :: mid) ++ [f] := by simp
    rw [hassoc]
    have hold {d : Access} (h : d ∈ influence {a} (accesses mid)) :
        d = a ∨ ∃ j, StepAt (pre ++ e :: mid ++ [f]) j d ∧
          HappensBefore (pre ++ e :: mid ++ [f]) pre.length j :=
      (ih h).imp_right fun ⟨j, hstep, hbefore⟩ => ⟨j, hstep.append [f], hbefore.append [f]⟩
    rw [accesses_append] at hd
    cases hf : f.access? with
    | none =>
      have hnone : accesses [f] = [] := by simp [accesses, hf]
      rw [hnone, List.append_nil] at hd
      exact hold hd
    | some b =>
      have hone : accesses [f] = [b] := by simp [accesses, hf]
      rw [hone, influence_concat] at hd
      rcases hd with hd | ⟨rfl, c, hc, hdepends⟩
      · exact hold hd
      · -- the new step is reached from the first one or from another that is reached
        have hlast := stepAt_concat (pre ++ e :: mid) hf
        refine .inr ⟨_, hlast, ?_⟩
        rw [Access.not_independent_iff] at hdepends
        rcases ih hc with rfl | ⟨j, hstep, hbefore⟩
        · have hfirst : StepAt (pre ++ e :: mid ++ [f]) pre.length c := ⟨e, by simp, he⟩
          exact .single ⟨by simp, c, d, hfirst, hlast, hdepends⟩
        · exact (hbefore.append [f]).tail
            ⟨hstep.lt_length, c, d, hstep.append [f], hlast, hdepends⟩

namespace Clock

theorem count_le_tick (c : Clock) (slot other : Nat) :
    c.count other ≤ (c.tick slot).count other := by
  by_cases hslot : slot < maxSlots
  · by_cases hother : other = slot
    · subst hother
      have hlt : c.count other < 2 ^ 32 := (c.get other).toNat_lt
      rw [count_tick_self hslot]
      omega
    · rw [count_tick_of_ne hother]
  · rw [tick, if_neg hslot]

/-- Joined clocks are ahead of each of them. -/
theorem count_le_foldl_merge {events : List Event} {e : Event} (he : e ∈ events) (slot : Nat) :
    ∀ c : Clock, e.clock.count slot ≤
      (events.foldl (fun c e => c.merge e.clock) c).count slot := by
  induction events with
  | nil => cases he
  | cons first events ih =>
    intro c
    rw [List.foldl_cons]
    rcases List.mem_cons.1 he with rfl | he
    · refine Nat.le_trans ?_ (count_foldl_merge events slot _).1
      rw [count_merge]
      exact Nat.le_max_right _ _
    · exact ih he _

end Clock

namespace PartialOrder

variable {s : PartialOrder} {log : List (Visit × Exchange)} {slot : Nat} {a : Access}

/-- The clock of a step is ahead of the clocks of the steps before it, and the clock of a unit ahead
of those of all its steps. -/
structure Leading (s : PartialOrder) (steps : List (Event × Access)) : Prop where
  last : ∀ m ∈ steps, ∀ other, m.1.clock.count other ≤ (s.lastClock m.1.slot).count other
  step : steps.Pairwise fun m n =>
    ¬ m.2.Independent n.2 → ∀ other, m.1.clock.count other ≤ n.1.clock.count other

theorem Leading.joined {t : PartialOrder} {steps : List (Event × Access)} (h : s.Leading steps)
    (hjoined : s.Joined t) : t.Leading steps :=
  ⟨by simpa only [hjoined.lastClock] using h.last, h.step⟩

theorem Leading.passValue {steps : List (Event × Access)} (h : s.Leading steps)
    (count chosen : UInt64) (ahead : List Fork) :
    (s.passValue count chosen ahead).Leading steps :=
  ⟨h.last, h.step⟩

theorem leading_nil (s : PartialOrder) : s.Leading [] := ⟨by simp, .nil⟩

/-- The steps that a new one depends on are among the events that it joins. -/
theorem Recorded.mem_events (h : s.Recorded log) {target : Option UnitId} {m : Event × Access}
    (hm : m ∈ steps log) (hdepends : m.1.dependsOn slot target = true) :
    m.1 ∈ s.passed.filterMap (Visit.eventBefore? slot target) := by
  obtain ⟨⟨v, e⟩, hlog, hstep⟩ := List.mem_filterMap.1 hm
  cases v with
  | value count chosen => cases hstep
  | step b ev =>
    simp only [stepOf?, Option.map_eq_some_iff] at hstep
    obtain ⟨c, _, rfl⟩ := hstep
    refine List.mem_filterMap.2 ⟨.step b ev, ?_, by simpa [Visit.eventBefore?] using hdepends⟩
    rw [h.passed_eq, List.mem_reverse]
    exact List.mem_map_of_mem hlog

theorem lastClock_le_stepClock (s : PartialOrder) (slot : Nat) (target : Option UnitId)
    (other : Nat) : (s.lastClock slot).count other ≤ (s.stepClock slot target).count other :=
  Nat.le_trans (Clock.count_foldl_merge _ other _).1 (Clock.count_le_tick _ slot other)

/-- A new step is ahead of all that it is not independent of. -/
theorem Leading.le_stepClock (h : s.Leading (steps log)) (htimed : s.Timed (steps log))
    (hrecorded : s.Recorded log) (hslot : s.units[slot]? = some a.unit) {m : Event × Access}
    (hm : m ∈ steps log) (hdepends : ¬ m.2.Independent a) (other : Nat) :
    m.1.clock.count other ≤ (s.stepClock slot a.target).count other := by
  by_cases heq : m.1.slot = slot
  · have hlast := h.last m hm other
    rw [heq] at hlast
    exact Nat.le_trans hlast (lastClock_le_stepClock s slot a.target other)
  · have hunit : m.2.unit ≠ a.unit := fun hunit =>
      heq ((htimed.slot_eq_iff hrecorded.nodup hslot hm).2 hunit)
    have hmem := hrecorded.mem_events hm
      (dependsOn_of_not_independent (htimed.named m hm).2 heq hunit hdepends)
    exact Nat.le_trans (Clock.count_le_foldl_merge hmem other _) (Clock.count_le_tick _ slot other)

theorem Leading.commit (h : s.Leading (steps log)) (htimed : s.Timed (steps log))
    (hrecorded : s.Recorded log) {b : Branch} (hslot : s.units[b.chosen]? = some a.unit)
    (ahead : List Fork) : (s.commit b a.target ahead).Leading
      (steps log ++ [(⟨b.chosen, a.target, s.stepClock b.chosen a.target⟩, a)]) := by
  have hlt := lt_length_tracked hslot
  constructor
  · intro m hm other
    rw [lastClock_commit a.target ahead hlt]
    rcases List.mem_append.1 hm with hm | hm
    · by_cases heq : m.1.slot = b.chosen
      · have hlast := h.last m hm other
        rw [heq] at hlast
        rw [if_pos heq]
        exact Nat.le_trans hlast (lastClock_le_stepClock s b.chosen a.target other)
      · rw [if_neg heq]
        exact h.last m hm other
    · rw [List.mem_singleton.1 hm, if_pos rfl]
  · refine List.pairwise_append.2 ⟨h.step, List.pairwise_singleton _ _, fun m hm n hn => ?_⟩
    rw [List.mem_singleton.1 hn]
    exact fun hdepends => h.le_stepClock htimed hrecorded hslot hm hdepends

/-- A step in the log stands at its place there. -/
theorem Recorded.stepAt_iff (h : s.Recorded log) {i : Nat} {c : Access} :
    StepAt (log.map Prod.snd) i c ↔ ∃ m ev, log[i]? = some m ∧ stepOf? m = some (ev, c) := by
  constructor
  · rintro ⟨e, he, hc⟩
    rw [List.getElem?_map, Option.map_eq_some_iff] at he
    obtain ⟨⟨v, e⟩, hm, rfl⟩ := he
    change e.access? = some c at hc
    cases h.tells _ (List.mem_of_getElem? hm) with
    | @step b ev _ d _ hd _ _ => exact ⟨_, ev, hm, by simp [stepOf?, hc]⟩
    | value hnone =>
      change e.access? = none at hnone
      rw [hnone] at hc
      cases hc
  · rintro ⟨⟨v, e⟩, ev, hm, hstep⟩
    refine ⟨e, by simp [hm], ?_⟩
    cases v with
    | value count chosen => cases hstep
    | step b ev' =>
      simp only [stepOf?, Option.map_eq_some_iff, Prod.mk.injEq] at hstep
      obtain ⟨d, hd, rfl, rfl⟩ := hstep
      exact hd

theorem Leading.of_precedes (h : s.Leading (steps log)) (hrecorded : s.Recorded log) {i j : Nat}
    (hprecedes : Precedes (log.map Prod.snd) i j) {m n : Visit × Exchange} {x y : Event × Access}
    (hm : log[i]? = some m) (hn : log[j]? = some n) (hx : stepOf? m = some x)
    (hy : stepOf? n = some y) (other : Nat) :
    x.1.clock.count other ≤ y.1.clock.count other := by
  obtain ⟨hlt, c, d, hc, hd, horder⟩ := hprecedes
  obtain ⟨m', ev, hm', hx'⟩ := hrecorded.stepAt_iff.1 hc
  obtain ⟨n', ev', hn', hy'⟩ := hrecorded.stepAt_iff.1 hd
  cases hm.symm.trans hm'
  cases hn.symm.trans hn'
  cases hx.symm.trans hx'
  cases hy.symm.trans hy'
  obtain ⟨hi, rfl⟩ := List.getElem?_eq_some_iff.1 hm
  obtain ⟨hj, rfl⟩ := List.getElem?_eq_some_iff.1 hn
  exact List.pairwise_iff_getElem.1 (List.pairwise_filterMap.1 h.step) i j hi hj hlt _ hx _ hy
    (Access.not_independent_iff.2 horder) other

/-- Along a chain of steps the clocks only get ahead. -/
theorem Leading.of_happensBefore (h : s.Leading (steps log)) (hrecorded : s.Recorded log)
    {i j : Nat} (hbefore : HappensBefore (log.map Prod.snd) i j) :
    ∀ {m n : Visit × Exchange} {x y : Event × Access}, log[i]? = some m → log[j]? = some n →
      stepOf? m = some x → stepOf? n = some y →
      ∀ other, x.1.clock.count other ≤ y.1.clock.count other := by
  induction hbefore with
  | single hprecedes => exact h.of_precedes hrecorded hprecedes
  | tail _ hprecedes ih =>
    intro m n x y hm hn hx hy other
    obtain ⟨_, c, _, hc, _⟩ := id hprecedes
    obtain ⟨m', ev, hm', hx'⟩ := hrecorded.stepAt_iff.1 hc
    exact Nat.le_trans (ih hm hm' hx hx' other)
      (h.of_precedes hrecorded hprecedes hm' hn hx' hy other)

theorem Recorded.exists_step (h : s.Recorded log) {b : Branch} {ev : Event} {e : Exchange}
    (hmem : (Visit.step b ev, e) ∈ log) :
    ∃ c, e.access? = some c ∧ stepOf? (.step b ev, e) = some (ev, c) ∧ (ev, c) ∈ steps log := by
  cases h.tells _ hmem with
  | @step _ _ _ c _ hc _ _ =>
    have hstep : stepOf? (.step b ev, e) = some (ev, c) := by
      change e.access? = some c at hc
      simp [stepOf?, hc]
    exact ⟨c, hc, hstep, List.mem_filterMap.2 ⟨_, hmem, hstep⟩⟩

/-- A step that a new one races with is not before any step of its unit: the clock of the unit is
ahead of that step, and so of all that happens before. -/
theorem racesAt_of_racesWith (hleading : s.Leading (steps log)) (htimed : s.Timed (steps log))
    (hrecorded : s.Recorded log) (hslot : s.units[slot]? = some a.unit) {i : Nat} {b : Branch}
    {ev : Event} {e : Exchange} (hi : log[i]? = some (.step b ev, e))
    (hrace : ev.racesWith slot a.target (s.lastClock slot) = true) :
    RacesAt (log.map Prod.snd) i a := by
  obtain ⟨c, _, hstep, hsteps⟩ := hrecorded.exists_step (List.mem_of_getElem? hi)
  simp only [Event.racesWith, Bool.and_eq_true, Bool.not_eq_true'] at hrace
  obtain ⟨hdepends, hahead⟩ := hrace
  have hdependent : c.Dependent a := by
    have hne : ev.slot ≠ slot := by
      simp only [Event.dependsOn, Bool.and_eq_true, bne_iff_ne] at hdepends
      exact hdepends.1
    have horder := not_independent_of_dependsOn (htimed.named _ hsteps).2 hdepends
    exact (Access.not_independent_iff.1 horder).resolve_left fun hunit =>
      hne ((htimed.slot_eq_iff hrecorded.nodup hslot hsteps).2 hunit)
  refine ⟨c, hrecorded.stepAt_iff.2 ⟨_, ev, hi, hstep⟩, hdependent, fun j d hd hunit hbefore => ?_⟩
  obtain ⟨n, ev', hn, hy⟩ := hrecorded.stepAt_iff.1 hd
  have hmem : (ev', d) ∈ steps log := List.mem_filterMap.2 ⟨n, List.mem_of_getElem? hn, hy⟩
  have hslot' : ev'.slot = slot := (htimed.slot_eq_iff hrecorded.nodup hslot hmem).2 hunit
  have hdominated : ev.clock.dominatedBy (s.lastClock slot) = true :=
    Clock.dominatedBy_of_count_le fun other => by
      have hlast := hleading.last _ hmem other
      rw [hslot'] at hlast
      exact Nat.le_trans (hleading.of_happensBefore hrecorded hbefore hi hn hstep hy other) hlast
  rw [hdominated] at hahead
  cases hahead

/-- A step that happens before no step of a unit has not reached the unit. -/
theorem racesWith_of_racesAt (htimed : s.Timed (steps log)) (hrecorded : s.Recorded log)
    (hslot : s.units[slot]? = some a.unit) {i : Nat} {b : Branch} {ev : Event} {e : Exchange}
    (hi : log[i]? = some (.step b ev, e)) (hrace : RacesAt (log.map Prod.snd) i a) :
    ev.racesWith slot a.target (s.lastClock slot) = true := by
  obtain ⟨c, ⟨e', he', hc⟩, hdepends, hnot⟩ := hrace
  obtain ⟨c', hc', hstep, _⟩ := hrecorded.exists_step (List.mem_of_getElem? hi)
  obtain rfl : e = e' := by
    rw [List.getElem?_map, hi] at he'
    exact Option.some.inj he'
  cases hc.symm.trans hc'
  obtain ⟨hlt, hget⟩ := List.getElem?_eq_some_iff.1 hi
  have hsplit : log = log.take i ++ (.step b ev, e) :: log.drop (i + 1) := by
    rw [← hget, ← List.drop_eq_getElem_cons hlt, List.take_append_drop]
  have hsteps : steps log = steps (log.take i) ++ (ev, c) :: steps (log.drop (i + 1)) := by
    conv_lhs => rw [hsplit, steps_append]
    simp [steps, hstep]
  refine htimed.racesWith hrecorded.nodup hslot hsteps
    (Access.not_independent_iff.2 (.inr hdepends)) fun d hd hunit => ?_
  have hafter : (steps (log.drop (i + 1))).map Prod.snd =
      accesses ((log.drop (i + 1)).map Prod.snd) :=
    map_snd_steps fun n hn => hrecorded.tells n (List.mem_of_mem_drop hn)
  have hes : log.map Prod.snd = (log.take i).map Prod.snd ++
      e :: (log.drop (i + 1)).map Prod.snd := by
    conv_lhs => rw [hsplit]
    simp
  have hlength : ((log.take i).map Prod.snd).length = i := by
    rw [List.length_map, List.length_take]
    omega
  rw [reached, hafter] at hd
  rcases happensBefore_of_influence ((log.take i).map Prod.snd) hc hd with rfl | ⟨j, hat, hbefore⟩
  · exact hdepends.1 hunit
  · rw [← hes] at hat hbefore
    rw [hlength] at hbefore
    exact hnot j d hat hunit hbefore

/-- The steps that a new one races with, by the clocks, are those that it depends on and that happen
before no step of its unit. -/
theorem racesWith_iff (hleading : s.Leading (steps log)) (htimed : s.Timed (steps log))
    (hrecorded : s.Recorded log) (hslot : s.units[slot]? = some a.unit) {i : Nat} {b : Branch}
    {ev : Event} {e : Exchange} (hi : log[i]? = some (.step b ev, e)) :
    ev.racesWith slot a.target (s.lastClock slot) = true ↔ RacesAt (log.map Prod.snd) i a :=
  ⟨racesAt_of_racesWith hleading htimed hrecorded hslot hi,
    racesWith_of_racesAt htimed hrecorded hslot hi⟩

end PartialOrder
end Interleave
