import Interleave.Proofs.Report.Merging
import Mathlib.Data.List.Induction

/-!
# Interleave.Proofs.Report.Recording

Reports of what has been recorded, one event after the other.

* `Report.Event`, `Report.recorded`: the report of a list of events.
* `record_merge`: what is recorded in two merged reports is recorded in the second one.
* `recorded_append`: merging two reports is recording the events of one after those of the other.
* `merge_exchanged`: exchanged reports differ in the order of what they list.
* `merging_concatenates`: the laws of merging for the reports of events.
-/

namespace Interleave

section Writing

variable {α β : Type} [Ord α] [Std.TransOrd α] [Std.LawfulEqOrd α]

/-- What is written by joining something to the value that is there may as well be written before
another table takes the entries in. -/
theorem Table.update_merge {join : β → β → β} {f : Option β → β}
    (hsome : ∀ a b, f (some (join a b)) = join a (f (some b)))
    (hnone : ∀ a, f (some a) = join a (f none)) (t u : Table α β) (key : α) :
    (t.merge join u).update key f = t.merge join (u.update key f) := by
  refine ext_get? fun k => ?_
  simp only [get?_update, get?_merge]
  split
  · rename_i heq
    obtain rfl : k = key := Std.LawfulEqCmp.eq_of_compare heq
    cases t.get? k <;> cases u.get? k <;> simp [hsome, hnone]
  · rfl

theorem StatesByName.record_merge (t u : StatesByName) (name state : String) :
    (t.merge u).record name state = t.merge (u.record name state) := by
  refine Table.update_merge (fun a b => ?_) (fun a => ?_) t u name
  · refine Collection.ext_contains fun s => ?_
    simp only [Option.getD_some, Collection.contains_insert, Collection.contains_union]
    exact or_left_comm
  · refine Collection.ext_contains fun s => ?_
    simp only [Option.getD_some, Option.getD_none, Collection.contains_insert,
      Collection.contains_union, Collection.contains_empty]
    simp [or_comm]

end Writing

namespace Report

/-- What is recorded in a report: a schedule, a bug, an internal error, or what has been visited,
one state at a time or all that is known from elsewhere. -/
inductive Event
  | schedule (steps : Nat) (fair : Bool)
  | finding (f : Finding)
  | internalError (message : String)
  | machine (label state : String)
  | monitor (name state : String)
  | coverage (c : Coverage)

namespace Event

def record : Event → Report → Report
  | schedule steps fair, r => r.recordSchedule steps fair
  | finding f, r => r.recordFinding f
  | internalError message, r => r.recordInternalError message
  | machine label state, r => { r with coverage := r.coverage.recordMachine label state }
  | monitor name state, r => { r with coverage := r.coverage.recordMonitor name state }
  | coverage c, r => r.recordCoverage c

/-- The steps of a schedule and whether it was fair. -/
def schedule? : Event → Option (Nat × Bool)
  | schedule steps fair => some (steps, fair)
  | _ => none

def finding? : Event → Option Finding
  | finding f => some f
  | _ => none

def internalError? : Event → Option String
  | internalError message => some message
  | _ => none

end Event

/-- The report of events in order. -/
def recorded (strategy : String) (events : List Event) : Report :=
  events.foldl (fun r e => e.record r) (.new strategy)

@[simp] theorem recorded_concat (strategy : String) (events : List Event) (e : Event) :
    recorded strategy (events ++ [e]) = e.record (recorded strategy events) := by
  simp [recorded]

section Homomorphism

variable {r s : Report}

theorem minOption_elim (a b : Option Nat) (steps : Nat) :
    some ((minOption a b).elim steps fun least => min least steps) =
      minOption a (some (b.elim steps fun least => min least steps)) := by
  cases a <;> cases b <;> simp [minOption, Nat.min_assoc]

/-- The two sides list the event in the same place. That of the first bug is decided by which of the
reports has one. -/
theorem record_merge (e : Event) (r s : Report) : e.record (r.merge s) = r.merge (e.record s) := by
  cases e with
  | schedule steps fair =>
    cases fair <;> simp [Event.record, recordSchedule, merge, minOption_elim, Nat.add_assoc,
      Nat.max_assoc]
  | finding f =>
    have hkinds : (r.bugsByKind.merge (· + ·) s.bugsByKind).update f.kind
          (fun count => count.getD 0 + 1) =
        r.bugsByKind.merge (· + ·) (s.bugsByKind.update f.kind fun count => count.getD 0 + 1) :=
      Table.update_merge (fun a b => Nat.add_assoc a b 1) (fun a => rfl) _ _ _
    cases hr : r.bugFound <;> cases hs : s.bugFound <;>
      simp [Event.record, recordFinding, merge, hkinds, hr, hs, Nat.add_assoc]
  | internalError message => simp [Event.record, recordInternalError, merge]
  | machine label state =>
    simp [Event.record, Coverage.recordMachine, Coverage.merge, merge, StatesByName.record_merge]
  | monitor name state =>
    simp [Event.record, Coverage.recordMonitor, Coverage.merge, merge, StatesByName.record_merge]
  | coverage c => simp [Event.record, recordCoverage, merge, Coverage.merge_assoc]

theorem strategy_record (e : Event) (r : Report) : (e.record r).strategy = r.strategy := by
  cases e <;> rfl

theorem strategy_recorded (strategy : String) (events : List Event) :
    (recorded strategy events).strategy = strategy := by
  induction events using List.reverseRecOn with
  | nil => rfl
  | append_singleton events e ih => rw [recorded_concat, strategy_record, ih]

theorem Headed.record (h : r.Headed) (e : Event) : (e.record r).Headed := by
  cases e with
  | schedule steps fair => exact h.recordSchedule steps fair
  | finding f => exact h.recordFinding f
  | internalError message => exact h.recordInternalError message
  | machine label state => exact h.of_eq rfl rfl rfl
  | monitor name state => exact h.of_eq rfl rfl rfl
  | coverage c => exact h.recordCoverage c

theorem headed_recorded (strategy : String) (events : List Event) :
    (recorded strategy events).Headed := by
  induction events using List.reverseRecOn with
  | nil => exact .new strategy
  | append_singleton events e ih =>
    rw [recorded_concat]
    exact ih.record e

theorem merge_new (r : Report) : r.merge (.new r.strategy) = r := by
  have hleast : minOption r.minSteps none = r.minSteps := by cases r.minSteps <;> rfl
  have hcoverage : r.coverage.merge .empty = r.coverage := rfl
  have hkinds : r.bugsByKind.merge (· + ·) ∅ = r.bugsByKind := rfl
  simp [merge, new, hleast, hcoverage, hkinds]

/-- Every event of the second report goes past the first one. -/
theorem recorded_append (strategy : String) (events events' : List Event) :
    recorded strategy (events ++ events') =
      (recorded strategy events).merge (recorded strategy events') := by
  have hfirst : (recorded strategy events).merge (.new strategy) = recorded strategy events := by
    have hnew := merge_new (recorded strategy events)
    rwa [strategy_recorded] at hnew
  calc recorded strategy (events ++ events')
      = events'.foldl (fun r e => e.record r) (recorded strategy events) := List.foldl_append
    _ = events'.foldl (fun r e => e.record r)
          ((recorded strategy events).merge (.new strategy)) := by rw [hfirst]
    _ = (recorded strategy events).merge (recorded strategy events') :=
        List.foldl_hom _ fun s e => record_merge e _ s

/-- What two reports list comes in the other order when they are exchanged, and with it the first
bug. -/
theorem merge_exchanged (hr : r.Headed) (hs : s.Headed) (h : s.strategy = r.strategy) :
    s.merge r = { r.merge s with
      findings := s.findings ++ r.findings
      firstBug := ((s.findings ++ r.findings).head?.map (·.message)).getD ""
      internalErrors := s.internalErrors ++ r.internalErrors } := by
  have hfirst : (s.merge r).firstBug =
      ((s.findings ++ r.findings).head?.map (·.message)).getD "" := (hs.merge hr).firstBug
  rw [← hfirst]
  simp only [merge, h, ite_self, Nat.add_comm, minOption_comm r.minSteps, Nat.max_comm r.maxSteps,
    Table.merge_comm Nat.add_comm r.bugsByKind, Coverage.merge_comm r.coverage,
    Bool.or_comm r.bugFound]

end Homomorphism

/-- Recording events and then others gives the report of the first ones merged with that of the
others. So it does not matter how reports are grouped, an empty report adds nothing on either side,
and when two reports are exchanged only the order of the bugs and of the internal errors is another
one, and with it the bug that comes first. -/
theorem merging_concatenates (strategy : String) :
    (∀ xs ys, recorded strategy (xs ++ ys) =
      (recorded strategy xs).merge (recorded strategy ys)) ∧
    (∀ xs ys zs,
      ((recorded strategy xs).merge (recorded strategy ys)).merge (recorded strategy zs) =
        (recorded strategy xs).merge ((recorded strategy ys).merge (recorded strategy zs))) ∧
    (∀ xs, (new strategy).merge (recorded strategy xs) = recorded strategy xs ∧
      (recorded strategy xs).merge (new strategy) = recorded strategy xs) ∧
    ∀ xs ys,
      let r := recorded strategy xs
      let s := recorded strategy ys
      (r.merge s).findings = r.findings ++ s.findings ∧
      (r.merge s).internalErrors = r.internalErrors ++ s.internalErrors ∧
      (r.merge s).firstBug = (((r.findings ++ s.findings).head?.map (·.message)).getD "") ∧
      s.merge r = { r.merge s with
        findings := s.findings ++ r.findings
        internalErrors := s.internalErrors ++ r.internalErrors
        firstBug := ((s.findings ++ r.findings).head?.map (·.message)).getD "" } := by
  have happend := recorded_append strategy
  refine ⟨happend, fun xs ys zs => ?_, fun xs => ⟨?_, ?_⟩, fun xs ys => ⟨rfl, rfl, ?_, ?_⟩⟩
  · rw [← happend, ← happend, ← happend, ← happend, List.append_assoc]
  · exact (happend [] xs).symm
  · have hnil := happend xs []
    rw [List.append_nil] at hnil
    exact hnil.symm
  · exact ((headed_recorded strategy xs).merge (headed_recorded strategy ys)).firstBug
  · refine merge_exchanged (headed_recorded strategy xs) (headed_recorded strategy ys) ?_
    rw [strategy_recorded, strategy_recorded]

end Report
end Interleave
