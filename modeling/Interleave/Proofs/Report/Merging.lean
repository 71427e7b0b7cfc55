import Interleave.Report

/-!
# Interleave.Proofs.Report.Merging

Merging reports. The order in which reports are merged shows only in the order of the findings and
of the internal errors, in which bug is called the first and in which strategy is named.

* `Table.merge_comm`, `Table.merge_assoc`: tables are merged entry by entry.
* `Report.merge_assoc`: merging is associative.
* `Report.tally`: the rest of a report; `tally_merge_comm` exchanges two reports there.
* `tally_foldl_merge`: many reports have one tally in every order.
* `Report.Headed`: the first bug of a report is the first of its findings. All that is done with
  reports keeps this.
-/

namespace Interleave

section Tables

variable {α β : Type} [Ord α] [Std.TransOrd α] [Std.LawfulEqOrd α] {join : β → β → β}

theorem Table.merge_comm (hjoin : ∀ a b, join a b = join b a) (t u : Table α β) :
    t.merge join u = u.merge join t := by
  have : Std.Commutative join := ⟨hjoin⟩
  refine ext_get? fun key => ?_
  rw [get?_merge, get?_merge]
  exact Std.Commutative.comm _ _

theorem Table.merge_assoc (hjoin : ∀ a b c, join (join a b) c = join a (join b c))
    (t u v : Table α β) : (t.merge join u).merge join v = t.merge join (u.merge join v) := by
  have : Std.Associative join := ⟨hjoin⟩
  refine ext_get? fun key => ?_
  simp only [get?_merge]
  exact Std.Associative.assoc _ _ _

theorem Collection.union_comm (s t : Collection α) : s.union t = t.union s := by
  refine ext_contains fun a => ?_
  rw [contains_union, contains_union]
  exact Or.comm

theorem Collection.union_assoc (s t u : Collection α) :
    (s.union t).union u = s.union (t.union u) := by
  refine ext_contains fun a => ?_
  simp only [contains_union]
  exact or_assoc

theorem Coverage.merge_comm (c d : Coverage) : c.merge d = d.merge c := by
  simp only [merge, StatesByName.merge, Table.merge_comm Collection.union_comm c.machines,
    Table.merge_comm Collection.union_comm c.monitors]

theorem Coverage.merge_assoc (c d e : Coverage) :
    (c.merge d).merge e = c.merge (d.merge e) := by
  simp only [merge, StatesByName.merge, Table.merge_assoc Collection.union_assoc]

end Tables

namespace Report

theorem minOption_eq : minOption = Option.merge min := by
  funext a b
  cases a <;> cases b <;> rfl

theorem minOption_comm (a b : Option Nat) : minOption a b = minOption b a := by
  have : Std.Commutative (min : Nat → Nat → Nat) := ⟨Nat.min_comm⟩
  rw [minOption_eq]
  exact Std.Commutative.comm a b

theorem minOption_assoc (a b c : Option Nat) :
    minOption (minOption a b) c = minOption a (minOption b c) := by
  have : Std.Associative (min : Nat → Nat → Nat) := ⟨Nat.min_assoc⟩
  rw [minOption_eq]
  exact Std.Associative.assoc a b c

theorem merge_assoc (r s t : Report) : (r.merge s).merge t = r.merge (s.merge t) := by
  simp only [merge, Nat.add_assoc, minOption_assoc, Nat.max_assoc, Table.merge_assoc Nat.add_assoc,
    List.append_assoc, Coverage.merge_assoc, Bool.or_assoc, Report.mk.injEq, true_and, and_true]
  constructor
  · by_cases hr : r.strategy.isEmpty <;> simp [hr]
  · by_cases hr : r.bugFound = true <;> by_cases hs : s.bugFound = true <;>
      by_cases ht : t.bugFound = true <;> simp [hr, hs, ht]

/-- What does not depend on the order in which reports are merged. -/
def tally (r : Report) : Report :=
  { r with strategy := "", firstBug := "", findings := [], internalErrors := [] }

theorem tally_merge (r s : Report) : (r.merge s).tally = r.tally.merge s.tally := by
  simp [tally, merge]

theorem tally_merge_comm (r s : Report) : (r.merge s).tally = (s.merge r).tally := by
  simp only [tally, merge, Nat.add_comm, minOption_comm r.minSteps, Nat.max_comm r.maxSteps,
    Table.merge_comm Nat.add_comm r.bugsByKind, Coverage.merge_comm r.coverage,
    Bool.or_comm r.bugFound]

/-- By the two laws of merging, any two reports in a row may be exchanged. -/
theorem tally_foldl_merge {reports reports' : List Report} (h : reports.Perm reports')
    (r : Report) : (reports.foldl merge r).tally = (reports'.foldl merge r).tally := by
  have htally : ∀ reports : List Report, (reports.foldl merge r).tally =
      reports.foldl (fun x y => x.merge y.tally) r.tally := fun reports =>
    (List.foldl_hom tally fun x y => (tally_merge x y).symm).symm
  rw [htally, htally]
  refine h.foldl_eq' (fun x _ y _ z => ?_) _
  calc (z.merge x.tally).merge y.tally
      = z.merge (x.merge y).tally := by rw [merge_assoc, ← tally_merge]
    _ = z.merge (y.merge x).tally := by rw [tally_merge_comm]
    _ = (z.merge y.tally).merge x.tally := by rw [merge_assoc, ← tally_merge]

/-- A list that is joined when reports are merged is joined over many. -/
theorem foldl_merge_eq_flatMap {α : Type} {f : Report → List α}
    (hf : ∀ r s, f (r.merge s) = f r ++ f s) :
    ∀ (reports : List Report) (r : Report),
      f (reports.foldl merge r) = f r ++ reports.flatMap f := by
  intro reports
  induction reports with
  | nil => simp
  | cons s reports ih => simp [ih, hf]

theorem strategy_foldl_merge {r : Report} (h : r.strategy.isEmpty = false) (reports : List Report) :
    (reports.foldl merge r).strategy = r.strategy := by
  induction reports generalizing r with
  | nil => rfl
  | cons s reports ih =>
    have hmerge : (r.merge s).strategy = r.strategy := by simp [merge, h]
    rw [List.foldl_cons, ih (by rw [hmerge]; exact h), hmerge]

/-- The first bug is that of the first finding, and there is a bug exactly where there is one. -/
structure Headed (r : Report) : Prop where
  bugFound : r.bugFound = !r.findings.isEmpty
  firstBug : r.firstBug = (r.findings.head?.map (·.message)).getD ""

namespace Headed

theorem new (strategy : String) : (Report.new strategy).Headed := ⟨rfl, rfl⟩

variable {r s : Report}

/-- What neither finds a bug nor tells one keeps this. -/
theorem of_eq (h : r.Headed) (hfound : s.bugFound = r.bugFound) (hfirst : s.firstBug = r.firstBug)
    (hfindings : s.findings = r.findings) : s.Headed where
  bugFound := by rw [hfound, hfindings, h.bugFound]
  firstBug := by rw [hfirst, hfindings, h.firstBug]

theorem recordSchedule (h : r.Headed) (steps : Nat) (fair : Bool) :
    (r.recordSchedule steps fair).Headed := h.of_eq rfl rfl rfl

theorem recordCoverage (h : r.Headed) (c : Coverage) : (r.recordCoverage c).Headed :=
  h.of_eq rfl rfl rfl

theorem recordInternalError (h : r.Headed) (message : String) :
    (r.recordInternalError message).Headed := h.of_eq rfl rfl rfl

theorem recordFinding (h : r.Headed) (f : Finding) : (r.recordFinding f).Headed := by
  obtain ⟨hfound, hfirst⟩ := h
  cases hfindings : r.findings with
  | nil =>
    rw [hfindings] at hfound
    constructor <;> simp [Report.recordFinding, hfound, hfindings]
  | cons g findings =>
    rw [hfindings] at hfound hfirst
    constructor <;> simp [Report.recordFinding, hfound, hfirst, hfindings]

theorem merge (hr : r.Headed) (hs : s.Headed) : (r.merge s).Headed := by
  obtain ⟨hfound, hfirst⟩ := hr
  cases hfindings : r.findings with
  | nil =>
    rw [hfindings] at hfound hfirst
    constructor
    · simp [Report.merge, hfound, hfindings, hs.bugFound]
    · cases hother : s.findings <;>
        simp [Report.merge, hfound, hfirst, hfindings, hs.bugFound, hs.firstBug, hother]
  | cons g findings =>
    rw [hfindings] at hfound hfirst
    constructor <;> simp [Report.merge, hfound, hfirst, hfindings]

theorem foldl_merge {reports : List Report} (hr : r.Headed) (h : ∀ s ∈ reports, s.Headed) :
    (reports.foldl Report.merge r).Headed := by
  induction reports generalizing r with
  | nil => exact hr
  | cons s reports ih =>
    exact ih (hr.merge (h s List.mem_cons_self)) fun t ht => h t (List.mem_cons_of_mem _ ht)

end Headed
end Report
end Interleave
