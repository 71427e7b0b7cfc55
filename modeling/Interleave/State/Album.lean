import Std.Data.TreeMap.Lemmas
import Interleave.State.Snapshot

/-!
# Interleave.State.Album

The snapshots of one run, at most one for a step, found by step and by fingerprint. `Occurrences`
lists the steps of one fingerprint in the order their snapshots were taken; an album keeps them so
that a step is listed under a fingerprint exactly when its snapshot has that fingerprint.
-/

namespace Interleave

/-- The steps at which one fingerprint was met. -/
structure Occurrences where
  latestFirst : List Nat
  count : Nat
  count_eq : count = latestFirst.length

namespace Occurrences

def empty : Occurrences := ⟨[], 0, rfl⟩

def add (step : Nat) (o : Occurrences) : Occurrences :=
  ⟨step :: o.latestFirst, o.count + 1, by simp [o.count_eq]⟩

/-- The steps in the order they were met. -/
def toList (o : Occurrences) : List Nat := o.latestFirst.reverse

/-- The step met after `index` others; it costs the more the longer ago it was met. -/
def get? (o : Occurrences) (index : Nat) : Option Nat :=
  if index < o.count then o.latestFirst[o.count - 1 - index]? else none

@[simp] theorem toList_empty : empty.toList = [] := rfl

@[simp] theorem toList_add (step : Nat) (o : Occurrences) :
    (o.add step).toList = o.toList ++ [step] := by simp [toList, add]

theorem length_toList (o : Occurrences) : o.toList.length = o.count := by
  simp [toList, o.count_eq]

theorem get?_eq_getElem?_toList (o : Occurrences) (index : Nat) :
    o.get? index = o.toList[index]? := by
  unfold get?
  split
  · rename_i h
    rw [o.count_eq] at h
    simp [toList, List.getElem?_reverse h, o.count_eq]
  · rename_i h
    exact (List.getElem?_eq_none (by rw [length_toList]; omega)).symm

/-- The steps that an index lists under a fingerprint. -/
def find (index : Std.TreeMap UInt64 Occurrences) (fingerprint : UInt64) : Occurrences :=
  (index[fingerprint]?).getD empty

/-- List a step under a fingerprint, after those listed before. -/
def file (step : Nat) (fingerprint : UInt64) (index : Std.TreeMap UInt64 Occurrences) :
    Std.TreeMap UInt64 Occurrences :=
  index.alter fingerprint fun old => some ((old.getD empty).add step)

@[simp] theorem find_empty (fingerprint : UInt64) : find ∅ fingerprint = empty := by simp [find]

theorem find_file (step : Nat) (fingerprint : UInt64) (index : Std.TreeMap UInt64 Occurrences)
    (other : UInt64) :
    find (file step fingerprint index) other =
      if fingerprint = other then (find index other).add step else find index other := by
  simp only [find, file, Std.TreeMap.getElem?_alter, Std.LawfulEqCmp.compare_eq_iff_eq]
  split
  · rename_i h
    simp [h]
  · rfl

end Occurrences

structure Album where
  byStep : Std.TreeMap Nat Snapshot
  byFingerprint : Std.TreeMap UInt64 Occurrences
  mem_find_iff : ∀ fingerprint step,
    step ∈ (Occurrences.find byFingerprint fingerprint).toList ↔
      byStep[step]?.map (·.fingerprint) = some fingerprint
  nodup_find : ∀ fingerprint, (Occurrences.find byFingerprint fingerprint).toList.Nodup

namespace Album

def empty : Album where
  byStep := ∅
  byFingerprint := ∅
  mem_find_iff _ _ := by simp
  nodup_find _ := by simp

def size (a : Album) : Nat := a.byStep.size

def get? (a : Album) (step : Nat) : Option Snapshot := a.byStep[step]?

/-- The steps whose snapshot has a fingerprint. -/
def occurrences (a : Album) (fingerprint : UInt64) : Occurrences :=
  .find a.byFingerprint fingerprint

/-- Put in the snapshot of a step that has none yet. -/
def add (step : Nat) (snapshot : Snapshot) (a : Album) (new : a.get? step = none) : Album where
  byStep := a.byStep.insert step snapshot
  byFingerprint := Occurrences.file step snapshot.fingerprint a.byFingerprint
  mem_find_iff fingerprint other := by
    have h := a.mem_find_iff fingerprint other
    unfold get? at new
    rw [Occurrences.find_file, Std.TreeMap.getElem?_insert]
    simp only [Std.LawfulEqCmp.compare_eq_iff_eq]
    by_cases hf : snapshot.fingerprint = fingerprint <;> by_cases hs : step = other
    · simp [hf, hs]
    · simp [hf, hs, h, Ne.symm hs]
    · subst hs
      simp [hf, h, new]
    · simp [hf, hs, h]
  nodup_find fingerprint := by
    unfold get? at new
    rw [Occurrences.find_file]
    split
    · rw [Occurrences.toList_add, List.nodup_append]
      refine ⟨a.nodup_find fingerprint, by simp, fun other ho _ hs he => ?_⟩
      rw [a.mem_find_iff, he, List.mem_singleton.1 hs, new] at ho
      cases ho
    · exact a.nodup_find fingerprint

theorem mem_occurrences_iff (a : Album) (fingerprint : UInt64) (step : Nat) :
    step ∈ (a.occurrences fingerprint).toList ↔
      (a.get? step).map (·.fingerprint) = some fingerprint := a.mem_find_iff fingerprint step

theorem nodup_occurrences (a : Album) (fingerprint : UInt64) :
    (a.occurrences fingerprint).toList.Nodup := a.nodup_find fingerprint

@[simp] theorem get?_empty (step : Nat) : empty.get? step = none := by simp [empty, get?]

theorem get?_add (step : Nat) (snapshot : Snapshot) (a : Album) (new : a.get? step = none)
    (other : Nat) :
    (a.add step snapshot new).get? other =
      if step = other then some snapshot else a.get? other := by
  simp [add, get?, Std.TreeMap.getElem?_insert]

@[simp] theorem occurrences_empty (fingerprint : UInt64) :
    empty.occurrences fingerprint = .empty := Occurrences.find_empty fingerprint

theorem occurrences_add (step : Nat) (snapshot : Snapshot) (a : Album)
    (new : a.get? step = none) (fingerprint : UInt64) :
    (a.add step snapshot new).occurrences fingerprint =
      if snapshot.fingerprint = fingerprint then (a.occurrences fingerprint).add step
      else a.occurrences fingerprint :=
  Occurrences.find_file step snapshot.fingerprint a.byFingerprint fingerprint

end Album
end Interleave
