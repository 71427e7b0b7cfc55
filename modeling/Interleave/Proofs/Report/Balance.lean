import Interleave.Proofs.Report.Recording
import Mathlib.Algebra.Order.BigOperators.Group.List
import Mathlib.Algebra.Order.Ring.Nat

/-!
# Interleave.Proofs.Report.Balance

The fields of a report agree with each other, whatever has been recorded and merged.

* `Report.Tells`, `tells_recorded`: how the fields of a report are read off its events.
* `Report.Made`: reports made by recording events and by merging reports so made.
* `named_of_made`: merging makes no report that recording does not make under another name.
* `Report.Balanced`, `balanced_of_made`: what holds between the fields of one report.
-/

namespace Interleave

/-- An entry counted up raises the sum of all counts by one. -/
theorem Table.sum_updateEntries_succ {α : Type} [Ord α] (key : α) (entries : List (α × Nat)) :
    ((updateEntries key (fun count => count.getD 0 + 1) entries).map (·.2)).sum =
      (entries.map (·.2)).sum + 1 := by
  induction entries with
  | nil => rfl
  | cons entry rest ih =>
    unfold updateEntries
    split
    · simp [Nat.add_comm]
    · simp only [Option.getD_some, List.map_cons, List.sum_cons]
      omega
    · simp only [List.map_cons, List.sum_cons, ih]
      omega

namespace Report

/-- What a report tells of schedules, with their steps and their fairness, of bugs and of internal
errors. -/
structure Tells (walks : List (Nat × Bool)) (found : List Finding) (failures : List String)
    (r : Report) : Prop where
  schedules : r.schedules = walks.length
  fairSchedules : r.fairSchedules = walks.countP (·.2)
  unfairSchedules : r.unfairSchedules = walks.countP (!·.2)
  minSteps : r.minSteps = (walks.map (·.1)).min?
  maxSteps : r.maxSteps = (walks.map (·.1)).foldl max 0
  totalSteps : r.totalSteps = (walks.map (·.1)).sum
  findings : r.findings = found
  bugs : r.bugs = found.length
  bugsByKind : ∀ kind, r.bugsByKind.get? kind =
    Option.guard (0 < ·) (found.countP (·.kind == kind))
  kindTotal : r.bugsByKind.values.sum = found.length
  internalErrors : r.internalErrors = failures

section Telling

variable {walks : List (Nat × Bool)} {found : List Finding} {failures : List String} {r : Report}

theorem min?_concat (ns : List Nat) (n : Nat) :
    (ns ++ [n]).min? = some (ns.min?.elim n fun least => min least n) := by
  cases ns with
  | nil => rfl
  | cons m ns =>
    rw [List.cons_append, List.min?_cons', List.min?_cons', List.foldl_append]
    rfl

theorem getD_guard_pos (n : Nat) : (Option.guard (0 < ·) n).getD 0 = n := by
  cases n <;> rfl

namespace Tells

theorem new (strategy : String) : Tells [] [] [] (.new strategy) :=
  ⟨rfl, rfl, rfl, rfl, rfl, rfl, rfl, rfl, fun _ => rfl, rfl, rfl⟩

theorem recordSchedule (h : Tells walks found failures r) (steps : Nat) (fair : Bool) :
    Tells (walks ++ [(steps, fair)]) found failures (r.recordSchedule steps fair) := by
  refine { h with
    schedules := ?_
    fairSchedules := ?_
    unfairSchedules := ?_
    minSteps := ?_
    maxSteps := ?_
    totalSteps := ?_ }
  · simp [Report.recordSchedule, h.schedules]
  · cases fair <;> simp [Report.recordSchedule, h.fairSchedules]
  · cases fair <;> simp [Report.recordSchedule, h.unfairSchedules]
  · rw [List.map_append, List.map_singleton, min?_concat, ← h.minSteps]
    rfl
  · simp [Report.recordSchedule, h.maxSteps]
  · simp [Report.recordSchedule, h.totalSteps]

theorem recordFinding (h : Tells walks found failures r) (f : Finding) :
    Tells walks (found ++ [f]) failures (r.recordFinding f) := by
  refine { h with findings := ?_, bugs := ?_, bugsByKind := fun kind => ?_, kindTotal := ?_ }
  · simp [Report.recordFinding, h.findings]
  · simp [Report.recordFinding, h.bugs]
  · simp only [Report.recordFinding, Table.get?_update, h.bugsByKind, getD_guard_pos,
      Std.LawfulEqCmp.compare_eq_iff_eq, List.countP_append, List.countP_singleton]
    by_cases hkind : kind = f.kind
    · simp [hkind]
    · simp [hkind, Ne.symm hkind]
  · show ((Table.updateEntries f.kind _ r.bugsByKind.entries).map (·.2)).sum = _
    rw [Table.sum_updateEntries_succ, List.length_append, List.length_singleton, ← h.kindTotal]
    rfl

theorem recordInternalError (h : Tells walks found failures r) (message : String) :
    Tells walks found (failures ++ [message]) (r.recordInternalError message) := by
  refine { h with internalErrors := ?_ }
  simp [Report.recordInternalError, h.internalErrors]

theorem cover (h : Tells walks found failures r) (c : Coverage) :
    Tells walks found failures { r with coverage := c } := { h with }

/-- An event adds to one of the lists at most. -/
theorem record (h : Tells walks found failures r) (e : Event) :
    Tells (walks ++ e.schedule?.toList) (found ++ e.finding?.toList)
      (failures ++ e.internalError?.toList) (e.record r) := by
  cases e
  all_goals simp only [Event.schedule?, Event.finding?, Event.internalError?, Option.toList_some,
    Option.toList_none, List.append_nil]
  case schedule steps fair => exact h.recordSchedule steps fair
  case finding f => exact h.recordFinding f
  case internalError message => exact h.recordInternalError message
  case machine label state => exact h.cover _
  case monitor name state => exact h.cover _
  case coverage c => exact h.cover _

end Tells

end Telling

def walksOf (events : List Event) : List (Nat × Bool) := events.filterMap Event.schedule?

def findingsOf (events : List Event) : List Finding := events.filterMap Event.finding?

def failuresOf (events : List Event) : List String := events.filterMap Event.internalError?

theorem filterMap_concat {α β : Type} (f : α → Option β) (as : List α) (a : α) :
    (as ++ [a]).filterMap f = as.filterMap f ++ (f a).toList := by
  rw [List.filterMap_append]
  cases h : f a <;> simp [h]

theorem tells_recorded (strategy : String) (events : List Event) :
    Tells (walksOf events) (findingsOf events) (failuresOf events) (recorded strategy events) := by
  induction events using List.reverseRecOn with
  | nil => exact .new strategy
  | append_singleton events e ih =>
    rw [recorded_concat, walksOf, findingsOf, failuresOf, filterMap_concat, filterMap_concat,
      filterMap_concat]
    exact ih.record e

section Balance

/-- A report made by these events, each recorded in it or in a report that has been merged into
it. -/
inductive Made : List Event → Report → Prop where
  | new (strategy : String) : Made [] (.new strategy)
  | record {events : List Event} {r : Report} (e : Event) :
      Made events r → Made (events ++ [e]) (e.record r)
  | merge {events events' : List Event} {r s : Report} :
      Made events r → Made events' s → Made (events ++ events') (r.merge s)

/-- What holds between the fields of one report. -/
structure Balanced (events : List Event) (r : Report) : Prop where
  bugFound_iff : r.bugFound = true ↔ 0 < r.bugs
  bugs_eq_findings : r.bugs = r.findings.length
  bugs_eq_sum : r.bugs = r.bugsByKind.values.sum
  bugsOf_eq : ∀ kind, r.bugsOf kind = r.findings.countP (·.kind == kind)
  firstBug_eq : r.firstBug = (r.findings.head?.map (·.message)).getD ""
  schedules_eq : r.schedules = r.fairSchedules + r.unfairSchedules
  minSteps_iff : r.minSteps.isSome = true ↔ ∃ steps fair, .schedule steps fair ∈ events
  ordered : ∀ least, r.minSteps = some least →
    least ≤ r.maxSteps ∧ least * r.schedules ≤ r.totalSteps ∧
      r.totalSteps ≤ r.maxSteps * r.schedules

variable {events : List Event} {r : Report}

/-- The same report of another strategy. -/
def named (strategy : String) (r : Report) : Report := { r with strategy }

theorem record_named (e : Event) (strategy : String) (r : Report) :
    e.record (r.named strategy) = (e.record r).named strategy := by
  cases e <;> rfl

theorem merge_named (strategy strategy' : String) (r s : Report) :
    ∃ strategy'', (r.named strategy).merge (s.named strategy') = (r.merge s).named strategy'' :=
  ⟨_, rfl⟩

/-- What is merged might have been recorded at once, though perhaps under another name. -/
theorem named_of_made (h : Made events r) :
    ∃ strategy, r = (recorded "" events).named strategy := by
  induction h with
  | new strategy => exact ⟨strategy, rfl⟩
  | record e _ ih =>
    obtain ⟨strategy, rfl⟩ := ih
    exact ⟨strategy, by rw [record_named, recorded_concat]⟩
  | merge _ _ ih ih' =>
    obtain ⟨strategy, rfl⟩ := ih
    obtain ⟨strategy', rfl⟩ := ih'
    rw [recorded_append]
    exact merge_named strategy strategy' _ _

theorem mem_walksOf_iff {steps : Nat} {fair : Bool} :
    (steps, fair) ∈ walksOf events ↔ .schedule steps fair ∈ events := by
  rw [walksOf, List.mem_filterMap]
  constructor
  · rintro ⟨e, hmem, he⟩
    cases e <;> cases he
    exact hmem
  · intro hmem
    exact ⟨_, hmem, rfl⟩

theorem le_foldl_max {ns : List Nat} {n : Nat} (h : n ∈ ns) : n ≤ ns.foldl max 0 := by
  rw [List.foldl_max]
  exact (List.le_max?_getD_of_mem h).trans (Nat.le_max_right _ _)

theorem Tells.balanced (h : Tells (walksOf events) (findingsOf events) (failuresOf events) r)
    (hr : r.Headed) : Balanced events r where
  bugFound_iff := by
    rw [hr.bugFound, h.bugs, h.findings, List.length_pos_iff]
    simp
  bugs_eq_findings := h.bugs.trans (congrArg List.length h.findings).symm
  bugs_eq_sum := h.bugs.trans h.kindTotal.symm
  bugsOf_eq kind := by rw [bugsOf, h.bugsByKind, getD_guard_pos, h.findings]
  firstBug_eq := hr.firstBug
  schedules_eq := by
    rw [h.schedules, h.fairSchedules, h.unfairSchedules]
    simpa using List.length_eq_countP_add_countP (l := walksOf events) (·.2)
  minSteps_iff := by
    rw [h.minSteps, List.isSome_min?_iff, Ne, List.map_eq_nil_iff]
    constructor
    · intro hne
      obtain ⟨⟨steps, fair⟩, hmem⟩ := List.exists_mem_of_ne_nil _ hne
      exact ⟨steps, fair, mem_walksOf_iff.1 hmem⟩
    · rintro ⟨steps, fair, hmem⟩
      exact List.ne_nil_of_mem (mem_walksOf_iff.2 hmem)
  ordered least hleast := by
    rw [h.minSteps, List.min?_eq_some_iff] at hleast
    obtain ⟨hmem, hle⟩ := hleast
    -- no summand is less than the least number of steps or more than the greatest one
    have hlow := List.card_nsmul_le_sum _ least hle
    have hhigh := List.sum_le_card_nsmul ((walksOf events).map (·.1)) _ fun n => le_foldl_max
    rw [Nat.nsmul_eq_mul, Nat.mul_comm] at hlow hhigh
    rw [h.maxSteps, h.totalSteps, h.schedules, ← List.length_map]
    exact ⟨le_foldl_max hmem, hlow, hhigh⟩

theorem Tells.named {walks : List (Nat × Bool)} {found : List Finding} {failures : List String}
    (h : Tells walks found failures r) (strategy : String) :
    Tells walks found failures (r.named strategy) := { h with }

/-- The fields of a report agree, in whatever way it was made. -/
theorem balanced_of_made (h : Made events r) : Balanced events r := by
  obtain ⟨strategy, rfl⟩ := named_of_made h
  exact ((tells_recorded "" events).named strategy).balanced
    ((headed_recorded "" events).of_eq rfl rfl rfl)

end Balance

/-- An assertion that failed. -/
def unmet (message : String) : Finding := ⟨.safety, message, true, .empty, []⟩

/-- A worker finds a bug after the report of another one has been merged into its own. -/
def twoWorkers : Report :=
  let other := (((new "dfs").recordSchedule 0 false).recordInternalError "overflow").recordFinding
    ⟨.internal, "overflow", false, .empty, []⟩
  (((new "random").recordSchedule 7 true).merge other).recordFinding (unmet "lost update")

theorem twoWorkers_balanced : ∃ events, Made events twoWorkers ∧ Balanced events twoWorkers ∧
    twoWorkers.firstBug = "overflow" ∧ twoWorkers.bugs = 2 ∧ twoWorkers.minSteps = some 0 := by
  have hother := (((Made.new "dfs").record (.schedule 0 false)).record
    (.internalError "overflow")).record (.finding ⟨.internal, "overflow", false, .empty, []⟩)
  have hmade := (((Made.new "random").record (.schedule 7 true)).merge hother).record
    (.finding (unmet "lost update"))
  exact ⟨_, hmade, balanced_of_made hmade, rfl, rfl, rfl⟩

end Report
end Interleave
