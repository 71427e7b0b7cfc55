import Mathlib.Data.List.Basic
import Interleave.Liveness.Cycle
import Interleave.Proofs.State.Captures

/-!
# Interleave.Proofs.Liveness.Window

What the tests on a cycle mean, and where a cycle lies in the trace it was taken from.

* `enabled_iff_of_isSchedulingFair`, `takes_of_isChoiceFair`: the two senses of fairness.
* `mem_hotMonitors_iff`: the monitors that are hot in every state.
* `Window`: a cycle is a stretch of the trace, and the state at its end is that before its first
  step, as far as fingerprints tell.
-/

namespace Interleave
namespace Cycle

theorem contains_enabledUnits {c : Cycle} {u : UnitId} :
    c.enabledUnits.contains u = true ↔ ∃ step ∈ c, step.state.enabled.contains u = true := by
  have hfold : ∀ (c : Cycle) (units : Collection UnitId),
      (c.foldl (fun units step => units.union step.state.enabled) units).contains u = true ↔
        units.contains u = true ∨ ∃ step ∈ c, step.state.enabled.contains u = true := by
    intro c
    induction c with
    | nil => simp
    | cons step c ih =>
      intro units
      rw [List.foldl_cons, ih, Collection.contains_union, or_assoc]
      simp
  unfold enabledUnits
  rw [hfold c ∅]
  simp

theorem contains_scheduledUnits {c : Cycle} {u : UnitId} :
    c.scheduledUnits.contains u = true ↔ ∃ step ∈ c, step.choice = .unit u := by
  unfold scheduledUnits
  rw [Collection.contains_ofList, List.mem_filterMap]
  refine exists_congr fun step => and_congr_right fun _ => ?_
  cases step.choice <;> simp [Choice.unit?]

theorem enabled_iff_of_isSchedulingFair {c : Cycle} (h : c.isSchedulingFair = true) (u : UnitId) :
    (∃ step ∈ c, step.state.enabled.contains u = true) ↔ ∃ step ∈ c, step.choice = .unit u := by
  have heq : c.enabledUnits.toList = c.scheduledUnits.toList := by
    simpa [isSchedulingFair] using h
  rw [← contains_enabledUnits, ← contains_scheduledUnits, ← Collection.mem_toList_iff, heq,
    Collection.mem_toList_iff]

theorem takes_of_isChoiceFair {c : Cycle} (h : c.isChoiceFair = true) {step : CycleStep}
    (hstep : step ∈ c) {id : String} {value : Bool} (hc : step.choice = .fairBoolean id value) :
    ∃ other ∈ c, other.choice = .fairBoolean id !value := by
  have hall := List.all_eq_true.1 h step hstep
  simp only [hc, takes] at hall
  obtain ⟨other, hmem, hother⟩ := List.any_eq_true.1 hall
  exact ⟨other, hmem, by simpa using hother⟩

theorem mem_hotMonitors_iff {c : Cycle} (hc : c ≠ []) {name : String} :
    name ∈ c.hotMonitors ↔ ∀ step ∈ c, (step.state.heatOf name).isHot = true := by
  cases c with
  | nil => exact absurd rfl hc
  | cons first rest =>
    simp only [hotMonitors, List.mem_filter, List.all_eq_true]
    constructor
    · exact fun h => h.2
    · intro hall
      refine ⟨List.mem_filterMap.2 ?_, hall⟩
      have hfirst := hall first List.mem_cons_self
      unfold Snapshot.heatOf at hfirst
      cases hget : first.state.monitors.get? name with
      | none => rw [hget] at hfirst; cases hfirst
      | some heat =>
        rw [hget] at hfirst
        have hhot : heat.isHot = true := hfirst
        exact ⟨(name, heat), Table.get?_eq_some_iff.1 hget, by simp [hhot]⟩

theorem visits_iff {c : Cycle} {fingerprint : UInt64} :
    c.visits fingerprint = true ↔ ∃ step ∈ c, step.state.fingerprint = fingerprint := by
  simp [visits]

end Cycle

/-- A cycle is the stretch of a trace from a step on, and closes. -/
structure Window (trace : Trace) (observer : Observer) (start : Nat) (cycle : Cycle) : Prop where
  start_pos : 0 < start
  length_pos : 0 < cycle.length
  step : ∀ i, i < cycle.length → ∃ choice state, cycle[i]? = some ⟨start + i, choice, state⟩ ∧
    trace.get? (start + i) = some choice ∧ observer.snapshotAt? (start + i) = some state
  closes : ∃ before after, observer.snapshotAt? (start - 1) = some before ∧
    observer.snapshotAt? (start + cycle.length - 1) = some after ∧
    before.fingerprint = after.fingerprint

theorem Window.mono {trace trace' : Trace} {observer observer' : Observer} {start : Nat} {c : Cycle}
    (h : Window trace observer start c)
    (ht : ∀ i choice, trace.get? i = some choice → trace'.get? i = some choice)
    (ho : observer.Extends observer') : Window trace' observer' start c := by
  refine ⟨h.start_pos, h.length_pos, fun i hi => ?_, ?_⟩
  · obtain ⟨choice, state, hc, hchoice, hstate⟩ := h.step i hi
    exact ⟨choice, state, hc, ht _ _ hchoice, ho _ _ hstate⟩
  · obtain ⟨before, after, hbefore, hafter, heq⟩ := h.closes
    exact ⟨before, after, ho _ _ hbefore, ho _ _ hafter, heq⟩

theorem Window.mem_iff {trace : Trace} {observer : Observer} {start : Nat} {c : Cycle}
    (h : Window trace observer start c) {step : CycleStep} :
    step ∈ c ↔ ∃ i, i < c.length ∧ step.index = start + i ∧
      trace.get? (start + i) = some step.choice ∧
      observer.snapshotAt? (start + i) = some step.state := by
  constructor
  · intro hmem
    obtain ⟨i, hi, hget⟩ := List.mem_iff_getElem.1 hmem
    obtain ⟨choice, state, hc, hchoice, hstate⟩ := h.step i hi
    rw [List.getElem?_eq_getElem hi, hget] at hc
    cases hc
    exact ⟨i, hi, rfl, hchoice, hstate⟩
  · rintro ⟨i, hi, hindex, hchoice, hstate⟩
    obtain ⟨choice, state, hc, hchoice', hstate'⟩ := h.step i hi
    rw [hchoice] at hchoice'
    rw [hstate] at hstate'
    cases hchoice'
    cases hstate'
    obtain ⟨index, choice, state⟩ := step
    cases hindex
    exact List.mem_of_getElem? hc

/-- What some state of the cycle has, a photograph in the window shows. -/
theorem Window.exists_state_iff {trace : Trace} {observer : Observer} {start : Nat} {c : Cycle}
    (h : Window trace observer start c) (Q : Snapshot → Prop) :
    (∃ step ∈ c, Q step.state) ↔ ∃ i state, i < c.length ∧
      observer.snapshotAt? (start + i) = some state ∧ Q state := by
  constructor
  · rintro ⟨step, hstep, hQ⟩
    obtain ⟨i, hi, _, _, hstate⟩ := h.mem_iff.1 hstep
    exact ⟨i, step.state, hi, hstate, hQ⟩
  · rintro ⟨i, state, hi, hstate, hQ⟩
    obtain ⟨choice, state', hc, _, hstate'⟩ := h.step i hi
    rw [hstate] at hstate'
    cases hstate'
    exact ⟨_, List.mem_of_getElem? hc, hQ⟩

theorem Window.forall_state_iff {trace : Trace} {observer : Observer} {start : Nat} {c : Cycle}
    (h : Window trace observer start c) (Q : Snapshot → Prop) :
    (∀ step ∈ c, Q step.state) ↔ ∀ i state, i < c.length →
      observer.snapshotAt? (start + i) = some state → Q state := by
  have hexists := not_congr (h.exists_state_iff fun state => ¬ Q state)
  push Not at hexists
  exact hexists

theorem getElem?_filterMap_of_isSome {α β : Type} {f : α → Option β} {l : List α}
    (h : ∀ a ∈ l, (f a).isSome = true) :
    (l.filterMap f).length = l.length ∧ ∀ i : Nat, (l.filterMap f)[i]? = l[i]?.bind f := by
  induction l with
  | nil => simp
  | cons a l ih =>
    obtain ⟨b, hb⟩ := Option.isSome_iff_exists.1 (h a List.mem_cons_self)
    obtain ⟨hlength, hget⟩ := ih fun a ha => h a (List.mem_cons_of_mem _ ha)
    rw [List.filterMap_cons_some hb]
    refine ⟨by simp [hlength], fun i => ?_⟩
    cases i with
    | zero => simp [hb]
    | succ i => simpa using hget i

theorem collect_spec {trace : Trace} {observer : Observer} {start : Nat}
    (h : ∀ i, start ≤ i → i < trace.length → (observer.snapshotAt? i).isSome = true) :
    (Cycle.collect trace observer start).length = trace.length - start ∧
      ∀ i, i < trace.length - start → ∃ choice state,
        (Cycle.collect trace observer start)[i]? = some ⟨start + i, choice, state⟩ ∧
        trace.get? (start + i) = some choice ∧ observer.snapshotAt? (start + i) = some state := by
  have hknown : ∀ i, start ≤ i → i < trace.length → ∃ choice state,
      trace.get? i = some choice ∧ observer.snapshotAt? i = some state := by
    intro i hle hlt
    obtain ⟨state, hstate⟩ := Option.isSome_iff_exists.1 (h i hle hlt)
    refine ⟨trace.choices[i], state, Array.getElem?_eq_getElem hlt, hstate⟩
  obtain ⟨hlength, hget⟩ := getElem?_filterMap_of_isSome
    (l := List.range' start (trace.length - start)) (f := fun index => do
      let choice ← trace.get? index
      let state ← observer.snapshotAt? index
      pure (⟨index, choice, state⟩ : CycleStep)) fun i hi => by
    obtain ⟨hle, hlt⟩ := List.mem_range'_1.1 hi
    obtain ⟨choice, state, hchoice, hstate⟩ := hknown i hle (by omega)
    simp [hchoice, hstate]
  refine ⟨hlength.trans List.length_range', fun i hi => ?_⟩
  obtain ⟨choice, state, hchoice, hstate⟩ := hknown (start + i) (by omega) (by omega)
  refine ⟨choice, state, (hget i).trans ?_, hchoice, hstate⟩
  have hrange : (List.range' start (trace.length - start))[i]? = some (start + i) := by
    rw [List.getElem?_range' hi, Nat.one_mul]
  simp [hrange, hchoice, hstate]

theorem window_collect {trace : Trace} {observer : Observer} {start : Nat} (hpos : 0 < start)
    (hlt : start < trace.length)
    (hknown : ∀ i, start ≤ i → i < trace.length → (observer.snapshotAt? i).isSome = true)
    {before after : Snapshot} (hbefore : observer.snapshotAt? (start - 1) = some before)
    (hafter : observer.snapshotAt? (trace.length - 1) = some after)
    (heq : before.fingerprint = after.fingerprint) :
    Window trace observer start (Cycle.collect trace observer start) := by
  obtain ⟨hlength, hstep⟩ := collect_spec hknown
  refine ⟨hpos, by omega, fun i hi => hstep i (by omega), before, after, hbefore, ?_, heq⟩
  rw [hlength, show start + (trace.length - start) - 1 = trace.length - 1 by omega]
  exact hafter

theorem Window.start_eq {trace : Trace} {observer : Observer} {start : Nat} {c : Cycle}
    (h : Window trace observer start c) : c.start = start := by
  have hmin : (c.map (·.index)).min? = some start := by
    refine List.min?_eq_some_iff.2 ⟨?_, ?_⟩
    · obtain ⟨choice, state, hc, _, _⟩ := h.step 0 h.length_pos
      exact List.mem_map.2 ⟨_, List.mem_of_getElem? hc, rfl⟩
    · intro index hindex
      obtain ⟨step, hstep, rfl⟩ := List.mem_map.1 hindex
      obtain ⟨i, _, hi, _, _⟩ := h.mem_iff.1 hstep
      omega
  rw [Cycle.start, hmin]
  rfl

end Interleave
