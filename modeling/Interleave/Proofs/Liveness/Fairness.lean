import Mathlib.Data.List.Rotate
import Interleave.Proofs.Liveness.Window

/-!
# Interleave.Proofs.Liveness.Fairness

A cycle has no first step, so the tests on it must not depend on where it is entered, how often it
is run through, or in which order its steps are listed.

* `isSchedulingFair_iff`, `isChoiceFair_iff`: each test in terms of the choices and states that
  occur. `isChoiceFair_eq_ways`: the fair choices are judged as well in one pass that keeps two
  flags for each.
* `pairwise_hotMonitors`: the hot monitors are listed in ascending order. A sorted list is told by
  its members, so this carries the list over to another order of the steps.
* `judgedAlike_of_occursAlike`: cycles in which the same choices and the same states occur are
  judged alike.
-/

namespace Interleave

/-- The ways that a fair choice has been seen to go. -/
structure Ways where
  yes : Bool
  no : Bool

namespace Ways

def unseen : Ways := ⟨false, false⟩

def take (w : Ways) (value : Bool) : Ways :=
  if value then { w with yes := true } else { w with no := true }

def both (w : Ways) : Bool := w.yes && w.no

end Ways

namespace Cycle

/-- A fair choice is noted under its name. -/
def noteWay (ways : Table String Ways) (step : CycleStep) : Table String Ways :=
  match step.choice with
  | .fairBoolean id value => ways.update id fun w => (w.getD .unseen).take value
  | _ => ways

/-- The ways that each fair choice of the cycle goes. -/
def ways (c : Cycle) : Table String Ways := c.foldl noteWay ∅

/-- The same choices are made in two cycles, and the same states reached. -/
structure OccursAlike (c c' : Cycle) : Prop where
  choices : ∀ choice, (∃ step ∈ c, step.choice = choice) ↔ ∃ step ∈ c', step.choice = choice
  states : ∀ state, (∃ step ∈ c, step.state = state) ↔ ∃ step ∈ c', step.state = state

/-- All tests on two cycles have the same results. -/
structure JudgedAlike (c c' : Cycle) : Prop where
  scheduling : c'.isSchedulingFair = c.isSchedulingFair
  choices : c'.isChoiceFair = c.isChoiceFair
  hot : c'.hotMonitors = c.hotMonitors

/-- What the tests on a cycle mean. -/
structure Judged (c : Cycle) : Prop where
  scheduling_iff : c.isSchedulingFair = true ↔ ∀ u,
    (∃ step ∈ c, step.state.enabled.contains u = true) ↔ ∃ step ∈ c, step.choice = .unit u
  choices_iff : c.isChoiceFair = true ↔ ∀ id value,
    (∃ step ∈ c, step.choice = .fairBoolean id value) →
      ∃ step ∈ c, step.choice = .fairBoolean id !value
  choices_eq_ways : c.isChoiceFair = c.ways.values.all Ways.both
  hot_ascending : c.hotMonitors.Pairwise (· < ·)
  mem_hot_iff : ∀ name, name ∈ c.hotMonitors ↔
    c ≠ [] ∧ ∀ step ∈ c, step.state.heatOf name = .hot

section Tests

variable {c c' : Cycle}

theorem isSchedulingFair_iff : c.isSchedulingFair = true ↔ ∀ u,
    (∃ step ∈ c, step.state.enabled.contains u = true) ↔ ∃ step ∈ c, step.choice = .unit u := by
  refine ⟨enabled_iff_of_isSchedulingFair, fun h => ?_⟩
  have heq : c.enabledUnits = c.scheduledUnits :=
    Collection.ext_contains fun u =>
      contains_enabledUnits.trans ((h u).trans contains_scheduledUnits.symm)
  rw [isSchedulingFair, heq, beq_self_eq_true]

theorem takes_iff {id : String} {value : Bool} :
    c.takes id value = true ↔ ∃ step ∈ c, step.choice = .fairBoolean id value := by
  simp [takes]

theorem isChoiceFair_iff : c.isChoiceFair = true ↔ ∀ id value,
    (∃ step ∈ c, step.choice = .fairBoolean id value) →
      ∃ step ∈ c, step.choice = .fairBoolean id !value := by
  constructor
  · rintro h id value ⟨step, hstep, hchoice⟩
    exact takes_of_isChoiceFair h hstep hchoice
  · intro h
    refine List.all_eq_true.2 fun step hstep => ?_
    cases hchoice : step.choice with
    | fairBoolean id value => exact takes_iff.2 (h id value ⟨step, hstep, hchoice⟩)
    | unit u => rfl
    | boolean value => rfl
    | integer value => rfl

/-- A fair choice goes both ways or does not occur. -/
theorem isChoiceFair_iff_takes : c.isChoiceFair = true ↔
    ∀ id, c.takes id true = c.takes id false := by
  rw [isChoiceFair_iff]
  constructor
  · intro h id
    rw [Bool.eq_iff_iff, takes_iff, takes_iff]
    exact ⟨h id true, h id false⟩
  · intro h id value
    rw [← takes_iff, ← takes_iff]
    cases value <;> simp [h id]

theorem takes_concat (c : Cycle) (step : CycleStep) (id : String) (value : Bool) :
    takes (c ++ [step]) id value =
      (c.takes id value || decide (step.choice = .fairBoolean id value)) := by
  simp [takes, Bool.beq_eq_decide_eq]

theorem ways_concat (c : Cycle) (step : CycleStep) :
    ways (c ++ [step]) = noteWay c.ways step := by simp [ways]

/-- The flags tell of what occurs, and there are none for a name that does not occur. -/
theorem get?_ways (c : Cycle) (id : String) : c.ways.get? id =
    if c.takes id true || c.takes id false then some ⟨c.takes id true, c.takes id false⟩
    else none := by
  induction c using List.reverseRecOn with
  | nil => rfl
  | append_singleton c step ih =>
    rw [ways_concat, takes_concat, takes_concat, noteWay]
    cases hchoice : step.choice with
    | fairBoolean other value =>
      by_cases hid : id = other
      · subst hid
        simp only [Table.get?_update, Std.LawfulEqCmp.compare_eq_iff_eq, if_true, ih]
        cases takes c id true <;> cases takes c id false <;> cases value <;>
          simp [Ways.take, Ways.unseen]
      · simpa [Table.get?_update, hid, Ne.symm hid] using ih
    | unit u => simpa using ih
    | boolean value => simpa using ih
    | integer value => simpa using ih

theorem isChoiceFair_eq_ways (c : Cycle) : c.isChoiceFair = c.ways.values.all Ways.both := by
  have hentry : ∀ w, w ∈ c.ways.values ↔ ∃ id, c.ways.get? id = some w := by
    intro w
    simp [Table.values, Table.get?_eq_some_iff]
  rw [Bool.eq_iff_iff, isChoiceFair_iff_takes, List.all_eq_true]
  constructor
  · intro h w hw
    obtain ⟨id, hid⟩ := (hentry w).1 hw
    rw [get?_ways, h id, Bool.or_self] at hid
    split at hid
    · rename_i htaken
      cases hid
      simp [Ways.both, htaken]
    · cases hid
  · intro h id
    by_cases hoccurs : (c.takes id true || c.takes id false) = true
    · have hboth := h _ ((hentry _).2 ⟨id, by rw [get?_ways, if_pos hoccurs]⟩)
      simp only [Ways.both, Bool.and_eq_true] at hboth
      rw [hboth.1, hboth.2]
    · simp only [Bool.not_eq_true, Bool.or_eq_false_iff] at hoccurs
      rw [hoccurs.1, hoccurs.2]

theorem pairwise_hotMonitors (c : Cycle) : c.hotMonitors.Pairwise (· < ·) := by
  cases c with
  | nil => exact .nil
  | cons first rest =>
    refine List.Pairwise.filter _ (List.pairwise_filterMap.2 ?_)
    refine first.state.monitors.ascending.imp fun {a b} hlt name hname other hother => ?_
    simp only [Option.ite_none_right_eq_some, Option.some.injEq] at hname hother
    rw [← hname.2, ← hother.2]
    exact compareOfLessAndEq_eq_lt.1 hlt

theorem nodup_hotMonitors (c : Cycle) : c.hotMonitors.Nodup :=
  (pairwise_hotMonitors c).imp String.ne_of_lt

theorem mem_hotMonitors {name : String} : name ∈ c.hotMonitors ↔
    c ≠ [] ∧ ∀ step ∈ c, step.state.heatOf name = .hot := by
  have hhot : ∀ heat : Heat, heat.isHot = true ↔ heat = .hot := by
    intro heat
    cases heat <;> decide
  by_cases hc : c = []
  · subst hc
    simp [hotMonitors]
  · simp only [mem_hotMonitors_iff hc, hhot, ne_eq, hc, not_false_eq_true, true_and]

theorem judged (c : Cycle) : c.Judged where
  scheduling_iff := isSchedulingFair_iff
  choices_iff := isChoiceFair_iff
  choices_eq_ways := isChoiceFair_eq_ways c
  hot_ascending := pairwise_hotMonitors c
  mem_hot_iff _ := mem_hotMonitors

/-- What is said of the states that occur is the same for both. -/
theorem OccursAlike.exists_state (h : c.OccursAlike c') (p : Snapshot → Prop) :
    (∃ step ∈ c, p step.state) ↔ ∃ step ∈ c', p step.state := by
  constructor
  · rintro ⟨step, hstep, hp⟩
    obtain ⟨other, hother, heq⟩ := (h.states step.state).1 ⟨step, hstep, rfl⟩
    exact ⟨other, hother, heq ▸ hp⟩
  · rintro ⟨step, hstep, hp⟩
    obtain ⟨other, hother, heq⟩ := (h.states step.state).2 ⟨step, hstep, rfl⟩
    exact ⟨other, hother, heq ▸ hp⟩

theorem OccursAlike.of_mem_iff (h : ∀ step, step ∈ c' ↔ step ∈ c) : c.OccursAlike c' where
  choices _ := exists_congr fun step => and_congr_left fun _ => (h step).symm
  states _ := exists_congr fun step => and_congr_left fun _ => (h step).symm

/-- The hot monitors of both are listed in ascending order, so that the lists are equal where the
members are. -/
theorem judgedAlike_of_occursAlike (h : c.OccursAlike c') : c.JudgedAlike c' where
  scheduling := by
    rw [Bool.eq_iff_iff, isSchedulingFair_iff, isSchedulingFair_iff]
    refine forall_congr' fun u => ?_
    rw [h.choices, h.exists_state fun state => state.enabled.contains u = true]
  choices := by
    rw [Bool.eq_iff_iff, isChoiceFair_iff, isChoiceFair_iff]
    simp only [h.choices]
  hot := by
    have hmem : ∀ name, name ∈ c'.hotMonitors ↔ name ∈ c.hotMonitors := by
      intro name
      have hsome : ∀ c : Cycle, c ≠ [] ↔ ∃ step ∈ c, True := by
        intro c
        cases c <;> simp
      have hcooler := h.exists_state fun state => state.heatOf name ≠ .hot
      rw [mem_hotMonitors, mem_hotMonitors, hsome, hsome, h.exists_state fun _ => True]
      refine and_congr_right fun _ => ?_
      simpa using (not_congr hcooler).symm
    have hperm : c'.hotMonitors.Perm c.hotMonitors :=
      (List.perm_ext_iff_of_nodup (nodup_hotMonitors c') (nodup_hotMonitors c)).2 hmem
    exact hperm.eq_of_pairwise (fun _ _ _ _ hab hba => (String.lt_asymm hab hba).elim)
      (pairwise_hotMonitors c') (pairwise_hotMonitors c)

end Tests

/-- The tests tell of the choices and the states that occur in the cycle, and depend on nothing
else: not on where it is entered, on the order of its steps, or on how often it is run through. -/
theorem judged_by_what_occurs (c : Cycle) :
    c.Judged ∧
    (∀ c' : Cycle, c.OccursAlike c' → c.JudgedAlike c') ∧
    (∀ c' : Cycle, (∀ step, step ∈ c' ↔ step ∈ c) → c.JudgedAlike c') ∧
    (∀ n, c.JudgedAlike (c.rotate n)) ∧
    (∀ c' : Cycle, c.Perm c' → c.JudgedAlike c') ∧
    ∀ n, 0 < n → c.JudgedAlike (List.replicate n c).flatten := by
  have hmembers : ∀ c' : Cycle, (∀ step, step ∈ c' ↔ step ∈ c) → c.JudgedAlike c' :=
    fun c' h => judgedAlike_of_occursAlike (.of_mem_iff h)
  refine ⟨judged c, fun c' => judgedAlike_of_occursAlike, hmembers, fun n => ?_, fun c' h => ?_,
    fun n hn => ?_⟩
  · exact hmembers _ fun step => List.mem_rotate
  · exact hmembers _ fun step => h.mem_iff.symm
  · exact hmembers _ fun step => by simp [List.mem_flatten, List.mem_replicate, hn.ne']

/-- A machine goes through a turnstile again or not, while progress is awaited. -/
def turnstile : Cycle :=
  let state : Snapshot := ⟨7, .ofList [⟨1⟩], (∅ : Table String Heat).insert "progress" .hot⟩
  [⟨3, .unit ⟨1⟩, state⟩, ⟨4, .fairBoolean "again" true, state⟩, ⟨5, .unit ⟨1⟩, state⟩,
    ⟨6, .fairBoolean "again" false, state⟩]

theorem judged_by_what_occurs_turnstile :
    isSchedulingFair (turnstile.rotate 3) = true ∧
      isChoiceFair (List.replicate 2 turnstile).flatten = true ∧
      hotMonitors turnstile.reverse = ["progress"] := by
  obtain ⟨-, -, hmembers, hrotate, -, hunroll⟩ := judged_by_what_occurs turnstile
  refine ⟨?_, ?_, ?_⟩
  · rw [(hrotate 3).scheduling]
    decide +kernel
  · rw [(hunroll 2 (by decide)).choices]
    decide +kernel
  · rw [(hmembers turnstile.reverse fun step => List.mem_reverse).hot]
    decide +kernel

end Cycle
end Interleave
