import Mathlib.Algebra.Ring.Nat
import Interleave.Campaign.Fleet
import Interleave.Proofs.Campaign
import Interleave.Proofs.DepthFirst.Exhaustive
import Interleave.Proofs.Pause.Descent
import Interleave.Proofs.Replay.Recording
import Interleave.Proofs.Report.Merging

/-!
# Interleave.Proofs.Campaign.Fleet

A series shared out among workers. What comes of it does not depend on the order in which the
workers finish, but for the order of what is listed and for the bug that is called the first.

* `Fleet.SharedOut`: all workers together are asked for what was asked for.
* `Fleet.exists_run_iff`: all workers come to an end exactly if each one does.
* `Fleet.gather_of_fault`, `Fleet.gather_of_reports`: what the workers leave behind.
* `Fleet.Combined`: the reports merged in the order of finishing and in the order of workers.
* `Fleet.gather_order_free`: assembled from these.
-/

namespace Interleave

section Shares

theorem check_eq_ok_iff {c : Configuration} : c.check = .ok () ↔
    c.iterations ≠ 0 ∧ ¬(c.unfairStepBound = 0 ∧ c.fairStepBound = 0) ∧ c.randomWalks ≠ 0 ∧
      c.workers ≠ 0 := by
  unfold Configuration.check
  repeat' split
  all_goals simp_all

theorem toNat_pos_of_ne_zero {n : UInt64} (h : n ≠ 0) : 0 < n.toNat :=
  Nat.pos_of_ne_zero fun hzero => h (UInt64.toNat_inj.1 hzero)

namespace Fleet

/-- The parts of a configuration that the workers are given: each is one to work with, they start
from different seeds, and their iterations are even shares of all. -/
structure SharedOut (c : Configuration) (parts : List Configuration) : Prop where
  valid : ∀ d ∈ parts, d.check = .ok ()
  seeded : ∀ d ∈ parts, d.seed.isSome = true
  seeds : (parts.map (·.seed)).Nodup
  positive : ∀ d ∈ parts, 1 ≤ d.iterations.toNat
  even : ∀ d ∈ parts, ∀ e ∈ parts, d.iterations.toNat ≤ e.iterations.toNat + 1
  total : (parts.map (·.iterations.toNat)).sum = c.iterations.toNat

theorem sum_shares (share extra : Nat) : ∀ workers : Nat,
    ((List.range workers).map fun w => share + if w < extra then 1 else 0).sum =
      workers * share + min workers extra := by
  intro workers
  induction workers with
  | zero => simp
  | succ n ih =>
    rw [List.range_succ, List.map_append, List.sum_append, ih, Nat.succ_mul]
    by_cases h : n < extra <;> simp [h] <;> omega

variable {c : Configuration}

theorem workerCount_eq (htimeout : c.timeout = none) :
    workerCount c = min c.workers.toNat c.iterations.toNat := by
  simp [workerCount, Configuration.untilTimeout, htimeout]

theorem share_eq (htimeout : c.timeout = none) (workers worker : Nat) :
    share c workers worker = c.iterations.toNat / workers +
      if worker < c.iterations.toNat % workers then 1 else 0 := by
  simp [share, Configuration.untilTimeout, htimeout]

/-- There is a worker, and there are no more of them than iterations. -/
theorem workerCount_bounds (hvalid : c.check = .ok ()) (htimeout : c.timeout = none) :
    0 < workerCount c ∧ workerCount c ≤ c.iterations.toNat := by
  obtain ⟨hiterations, -, -, hworkers⟩ := check_eq_ok_iff.1 hvalid
  have hsome := toNat_pos_of_ne_zero hiterations
  have hworker := toNat_pos_of_ne_zero hworkers
  rw [workerCount_eq htimeout]
  omega

theorem share_bounds (hvalid : c.check = .ok ()) (htimeout : c.timeout = none) (worker : Nat) :
    1 ≤ c.iterations.toNat / workerCount c ∧
      share c (workerCount c) worker ≤ c.iterations.toNat := by
  rw [share_eq htimeout]
  obtain ⟨hpos, hle⟩ := workerCount_bounds hvalid htimeout
  generalize workerCount c = workers at hpos hle ⊢
  have hparts := Nat.div_add_mod c.iterations.toNat workers
  have hshare := Nat.le_mul_of_pos_left (c.iterations.toNat / workers) hpos
  refine ⟨Nat.div_pos hle hpos, ?_⟩
  by_cases h : worker < c.iterations.toNat % workers <;> simp only [h, if_true, if_false] <;> omega

theorem iterations_workerConfiguration (hvalid : c.check = .ok ()) (htimeout : c.timeout = none)
    (seed : UInt64) (worker : Nat) :
    (workerConfiguration c seed (workerCount c) worker).iterations.toNat =
      share c (workerCount c) worker :=
  UInt64.toNat_ofNat_of_lt'
    (Nat.lt_of_le_of_lt (share_bounds hvalid htimeout worker).2 c.iterations.toNat_lt)

theorem seed_injective (seed : UInt64) {v w : Nat} (hv : v < 2 ^ 64) (hw : w < 2 ^ 64)
    (h : seed + UInt64.ofNat v = seed + UInt64.ofNat w) : v = w := by
  have hnumber := congrArg UInt64.toNat ((UInt64.add_right_inj seed).1 h)
  rwa [UInt64.toNat_ofNat_of_lt' hv, UInt64.toNat_ofNat_of_lt' hw] at hnumber

theorem configurations_sharedOut (hvalid : c.check = .ok ()) (htimeout : c.timeout = none)
    (seed : UInt64) : SharedOut c (configurations c seed) := by
  have hiterations := iterations_workerConfiguration hvalid htimeout seed
  have hbounds := share_bounds hvalid htimeout
  have hshare := share_eq htimeout (workerCount c)
  obtain ⟨hpos, hle⟩ := workerCount_bounds hvalid htimeout
  have hpositive : ∀ d ∈ configurations c seed, 1 ≤ d.iterations.toNat := by
    intro d hd
    obtain ⟨worker, -, rfl⟩ := List.mem_map.1 hd
    rw [hiterations, hshare]
    have hone := (hbounds worker).1
    omega
  refine ⟨?_, ?_, ?_, hpositive, ?_, ?_⟩
  · intro d hd
    have hone := hpositive d hd
    obtain ⟨worker, -, rfl⟩ := List.mem_map.1 hd
    obtain ⟨-, hsteps, hwalks, -⟩ := check_eq_ok_iff.1 hvalid
    refine check_eq_ok_iff.2 ⟨fun hzero => ?_, hsteps, hwalks, show (1 : UInt64) ≠ 0 by decide⟩
    rw [hzero] at hone
    simp at hone
  · intro d hd
    obtain ⟨worker, -, rfl⟩ := List.mem_map.1 hd
    rfl
  · rw [configurations, List.map_map]
    refine (List.nodup_map_iff_inj_on List.nodup_range).2 fun v hv w hw hsame => ?_
    have hlt : workerCount c < 2 ^ 64 := Nat.lt_of_le_of_lt hle c.iterations.toNat_lt
    rw [List.mem_range] at hv hw
    exact seed_injective seed (by omega) (by omega) (Option.some.inj hsame)
  · intro d hd e he
    obtain ⟨v, -, rfl⟩ := List.mem_map.1 hd
    obtain ⟨w, -, rfl⟩ := List.mem_map.1 he
    rw [hiterations, hiterations, hshare, hshare]
    split <;> omega
  · have hmod := Nat.mod_lt c.iterations.toNat hpos
    have hparts : (fun d : Configuration => d.iterations.toNat) ∘
        workerConfiguration c seed (workerCount c) = share c (workerCount c) := funext hiterations
    rw [configurations, List.map_map, hparts, funext hshare, sum_shares,
      Nat.min_eq_right (Nat.le_of_lt hmod)]
    exact Nat.div_add_mod _ _

end Fleet
end Shares

section Works

/-- A round that answers in more cases does not change a result that was reached. -/
theorem iterate_of_imp {α β : Type} {round round' : α → Option (α ⊕ β)}
    (h : ∀ a x, round a = some x → round' a = some x) :
    ∀ (n : Nat) (a : α) (b : β), iterate round n a = some b → iterate round' n a = some b := by
  intro n
  induction n with
  | zero => intro a b hb; cases hb
  | succ n ih =>
    intro a b hb
    rw [iterate] at hb ⊢
    cases hround : round a with
    | none => rw [hround] at hb; cases hb
    | some x =>
      rw [hround] at hb
      rw [h a x hround]
      cases x with
      | inl a' => exact ih a' b hb
      | inr b' => exact hb

theorem mapM_eq_some_iff {α β : Type} {f : α → Option β} :
    ∀ {items : List α} {values : List β}, items.mapM f = some values ↔
      List.Forall₂ (fun a b => f a = some b) items values := by
  intro items
  induction items with
  | nil => intro values; simp [eq_comm]
  | cons a items ih =>
    intro values
    simp only [List.mapM_cons, Option.bind_eq_bind, Option.bind_eq_some_iff, Option.pure_def,
      Option.some.injEq, ih, List.forall₂_cons_left_iff]
    constructor
    · rintro ⟨b, hb, rest, hrest, rfl⟩
      exact ⟨b, rest, hb, hrest, rfl⟩
    · rintro ⟨b, rest, hb, hrest, rfl⟩
      exact ⟨b, hb, rest, hrest, rfl⟩

variable {σ τ η : Type} {S : Strategy τ} {P : Program σ} {H : Host η} {c : Configuration}

namespace Campaign

theorem round_of_le {m n : Nat} (hmn : m ≤ n) {k : Campaign τ η}
    {x : Campaign τ η ⊕ (Except Fault Report × τ × η)} (h : round m S P H c k = some x) :
    round n S P H c k = some x := by
  unfold round at h ⊢
  split
  · rename_i hstops
    rw [if_pos hstops] at h
    exact h
  · rename_i hgoes
    rw [if_neg hgoes] at h
    obtain ⟨result, honce, hx⟩ := Option.map_eq_some_iff.1 h
    obtain ⟨r, hr, hresult⟩ := Option.map_eq_some_iff.1 honce
    rw [runOnce, run_mono hmn hr, Option.map_some, hresult, Option.map_some, hx]

theorem run_of_le {m n : Nat} (hmn : m ≤ n) {start : τ} {host : η}
    {result : Except Fault Report × τ × η} (h : run m S P H c start host = some result) :
    run n S P H c start host = some result := by
  obtain ⟨b, hb, hresult⟩ := Option.map_eq_some_iff.1 h
  refine Option.map_eq_some_iff.2 ⟨b, ?_, hresult⟩
  exact iterate_mono hmn (iterate_of_imp (fun _ _ => round_of_le hmn) m _ _ hb)

theorem headed_recordRun {r r' : Report} {attach fair found : Bool}
    {result : Except String Outcome} (hr : r.Headed)
    (h : r.recordRun attach fair result = .ok (found, r')) : r'.Headed := by
  cases result with
  | error message =>
    cases h
    exact ((hr.recordSchedule 0 fair).recordInternalError message).recordFinding _
  | ok o =>
    simp only [Report.recordRun, Report.recordOutcome] at h
    split at h
    · cases h
    · have hcounted := (hr.recordSchedule o.steps o.fair).recordCoverage o.coverage
      split at h
      · cases h
        exact hcounted
      · cases h
        exact hcounted.recordFinding _

theorem headed_round {fuel : Nat} {k : Campaign τ η} (hk : k.report.Headed)
    {x : Campaign τ η ⊕ (Except Fault Report × τ × η)} (h : round fuel S P H c k = some x) :
    (∀ k', x = .inl k' → k'.report.Headed) ∧
      ∀ report rest, x = .inr (.ok report, rest) → report.Headed := by
  cases comes_of_round h with
  | ends => exact ⟨nofun, fun report rest hend => by cases hend; exact hk⟩
  | fails => exact ⟨nofun, nofun⟩
  | more _ _ hrecord =>
    exact ⟨fun k' hk' => by cases hk'; exact headed_recordRun hk hrecord, nofun⟩
  | last _ _ hrecord =>
    exact ⟨nofun, fun report rest hend => by cases hend; exact headed_recordRun hk hrecord⟩

/-- Every report of a series is kept with its first finding as the first bug. -/
theorem headed_run {fuel : Nat} {start : τ} {host : η} {report : Report} {rest : τ × η}
    (h : run fuel S P H c start host = some (.ok report, rest)) : report.Headed := by
  obtain ⟨⟨result, s, host'⟩, hb, hresult⟩ := Option.map_eq_some_iff.1 h
  cases hresult
  refine (ends_of_iterate _ _ _ hb).of_invariant (I := fun k => k.report.Headed)
    (Q := fun b => ∀ report rest, b = (.ok report, rest) → report.Headed) (.new _)
    (fun hk hround => (headed_round hk hround).1 _ rfl) (fun hk hround report rest hend => ?_)
    _ _ rfl
  exact (headed_round hk hround).2 report rest (by rw [hend])

end Campaign

namespace Fleet

theorem work_of_le {m n : Nat} (hmn : m ≤ n) {host : η} {result : Except Fault Report}
    (h : work m P H host c = some result) : work n P H host c = some result := by
  unfold work at h ⊢
  split
  · rename_i hplan
    rw [hplan] at h
    exact h
  · rename_i hplan
    rw [hplan] at h
    obtain ⟨x, hx, hresult⟩ := Option.map_eq_some_iff.1 h
    exact Option.map_eq_some_iff.2 ⟨x, Campaign.run_of_le hmn hx, hresult⟩

theorem headed_work {fuel : Nat} {host : η} {report : Report}
    (h : work fuel P H host c = some (.ok report)) : report.Headed := by
  unfold work at h
  split at h
  · cases h
  · obtain ⟨⟨result, rest⟩, hx, hresult⟩ := Option.map_eq_some_iff.1 h
    cases hresult
    exact Campaign.headed_run hx

/-- Workers do not wait for each other: enough fuel for each is enough for all. -/
theorem exists_run_iff {host : η} {drawn : UInt64} {results : List (Except Fault Report)} :
    (∃ fuel, run fuel P H host c drawn = some results) ↔
      List.Forall₂ (fun d result => ∃ fuel, work fuel P H host d = some result)
        (configurations c (c.seed.getD drawn)) results := by
  simp only [run, mapM_eq_some_iff]
  generalize configurations c (c.seed.getD drawn) = parts
  constructor
  · rintro ⟨fuel, h⟩
    exact h.imp fun _ _ hwork => ⟨fuel, hwork⟩
  · intro h
    induction h with
    | nil => exact ⟨0, .nil⟩
    | cons hwork _ ih =>
      obtain ⟨m, hm⟩ := hwork
      obtain ⟨n, hn⟩ := ih
      exact ⟨max m n, .cons (work_of_le (Nat.le_max_left m n) hm)
        (hn.imp fun _ _ => work_of_le (Nat.le_max_right m n))⟩

theorem run_results {fuel : Nat} {host : η} {drawn : UInt64} {results : List (Except Fault Report)}
    (h : run fuel P H host c drawn = some results) :
    results.length = workerCount c ∧ ∀ report, .ok report ∈ results → report.Headed := by
  have hall := mapM_eq_some_iff.1 h
  refine ⟨by rw [← hall.length_eq, configurations, List.length_map, List.length_range], ?_⟩
  intro report hreport
  obtain ⟨i, hi, hget⟩ := List.getElem_of_mem hreport
  have hwork := (List.forall₂_iff_get.1 hall).2 i (by rw [hall.length_eq]; exact hi) hi
  rw [List.get_eq_getElem, List.get_eq_getElem, hget] at hwork
  exact headed_work hwork

end Fleet
end Works

section Gathering

namespace Fleet

/-- The fault of a worker with its number. -/
def fault? (worker : Nat) : Except Fault Report → Option (Nat × Fault)
  | .error fault => some (worker, fault)
  | .ok _ => none

variable {c : Configuration} {results : List (Except Fault Report)} {order : List Nat}

/-- By induction on the workers that finish: reports and faults come in as they are. -/
theorem foldl_finish (results : List (Except Fault Report)) : ∀ (order : List Nat) (l : Ledger),
    order.foldl (fun (l : Ledger) worker => results[worker]?.elim l (l.finish worker)) l =
      ⟨(order.filterMap fun worker => results[worker]?.bind report?).foldl Report.merge l.report,
        l.faults ++ order.filterMap fun worker => results[worker]?.bind (fault? worker)⟩ := by
  intro order
  induction order with
  | nil => intro l; simp
  | cons worker order ih =>
    intro l
    rw [List.foldl_cons, ih]
    cases hresult : results[worker]? with
    | none => simp [hresult]
    | some result =>
      cases result with
      | ok report => simp [hresult, Ledger.finish, report?, fault?]
      | error fault => simp [hresult, Ledger.finish, report?, fault?]

theorem Ledger.settle_of_nil {l : Ledger} (h : l.faults = []) : l.settle = .ok l.report := by
  simp [settle, h]

/-- The workers are told apart by their numbers, so sorting finds the least one. -/
theorem Ledger.settle_of_least {l : Ledger} {worker : Nat} {fault : Fault}
    (hmem : (worker, fault) ∈ l.faults)
    (hleast : ∀ other ∈ l.faults, other = (worker, fault) ∨ worker < other.1) :
    l.settle = .error fault := by
  have hperm := List.mergeSort_perm l.faults fun a b => decide (a.1 ≤ b.1)
  have hsorted : (l.faults.mergeSort fun a b => decide (a.1 ≤ b.1)).Pairwise
      fun a b => decide (a.1 ≤ b.1) = true := by
    refine List.pairwise_mergeSort (fun a b d hab hbd => ?_) (fun a b => ?_) l.faults
    · rw [decide_eq_true_eq] at hab hbd ⊢
      omega
    · rw [Bool.or_eq_true, decide_eq_true_eq, decide_eq_true_eq]
      omega
  unfold settle
  generalize l.faults.mergeSort (fun a b => decide (a.1 ≤ b.1)) = sorted at hperm hsorted
  cases sorted with
  | nil => cases hperm.mem_iff.2 hmem
  | cons first rest =>
    rcases hleast first (hperm.mem_iff.1 List.mem_cons_self) with rfl | hlt
    · rfl
    · rcases List.mem_cons.1 (hperm.mem_iff.2 hmem) with rfl | hrest
      · exact absurd hlt (Nat.lt_irrefl _)
      · have hle := List.rel_of_pairwise_cons hsorted hrest
        rw [decide_eq_true_eq] at hle
        exact absurd hlt (Nat.not_lt.2 hle)

theorem mem_faults_iff {x : Nat × Fault} :
    x ∈ order.filterMap (fun worker => results[worker]?.bind (fault? worker)) ↔
      x.1 ∈ order ∧ results[x.1]? = some (.error x.2) := by
  obtain ⟨worker, fault⟩ := x
  rw [List.mem_filterMap]
  constructor
  · rintro ⟨v, hv, hfault⟩
    obtain ⟨result, hresult, hfault⟩ := Option.bind_eq_some_iff.1 hfault
    cases result with
    | ok report => cases hfault
    | error fault' =>
      cases hfault
      exact ⟨hv, hresult⟩
  · rintro ⟨hworker, hresult⟩
    exact ⟨worker, hworker, by rw [hresult]; rfl⟩

/-- Whatever the order, the first worker with a fault is the one that is told of. -/
theorem gather_of_fault (horder : ∀ worker, worker ∈ order ↔ worker < results.length)
    {worker : Nat} {fault : Fault} (hfault : results[worker]? = some (.error fault))
    (hfirst : ∀ v < worker, ∃ report, results[v]? = some (.ok report)) :
    gather c results order = .error fault := by
  have hlt : worker < results.length := (List.getElem?_eq_some_iff.1 hfault).1
  rw [gather, foldl_finish]
  refine Ledger.settle_of_least (mem_faults_iff.2 ⟨(horder worker).2 hlt, hfault⟩) ?_
  rintro ⟨v, fault'⟩ hother
  obtain ⟨-, hresult⟩ := mem_faults_iff.1 hother
  rcases Nat.lt_trichotomy v worker with hbefore | rfl | hafter
  · obtain ⟨report, hreport⟩ := hfirst v hbefore
    rw [hresult] at hreport
    cases hreport
  · rw [hresult] at hfault
    cases hfault
    exact .inl rfl
  · exact .inr hafter

/-- Reports merged one after the other into that of the fleet. -/
def merged (c : Configuration) (reports : List Report) : Report :=
  reports.foldl Report.merge (.new (description c))

theorem gather_of_reports (reports : List Report) (order : List Nat) :
    gather c (reports.map .ok) order = .ok (merged c (order.filterMap (reports[·]?))) := by
  have hreports : (fun worker : Nat => (reports.map Except.ok)[worker]?.bind report?) =
      fun worker => reports[worker]? := by
    funext worker
    rw [List.getElem?_map]
    cases reports[worker]? <;> rfl
  have hfaults : (fun worker : Nat => (reports.map Except.ok)[worker]?.bind (fault? worker)) =
      fun _ => none := by
    funext worker
    rw [List.getElem?_map]
    cases reports[worker]? <;> rfl
  rw [gather, foldl_finish, Ledger.settle_of_nil]
  · rw [hreports]
    rfl
  · rw [hfaults]
    simp [Ledger.new]

/-- What comes of the reports when the workers finish in the given order: the counts, the number of
steps and the coverage are as in the order of the workers, the lists are those of one worker after
the other, and the first bug is the first one of some worker that has found any. -/
structure Combined (c : Configuration) (reports : List Report) (order : List Nat)
    (combined : Report) : Prop where
  tally : combined.tally = (merged c reports).tally
  strategy : combined.strategy = (merged c reports).strategy
  findings_eq : combined.findings = (order.filterMap (reports[·]?)).flatMap (·.findings)
  findings_perm : combined.findings.Perm (merged c reports).findings
  internalErrors_eq :
    combined.internalErrors = (order.filterMap (reports[·]?)).flatMap (·.internalErrors)
  internalErrors_perm : combined.internalErrors.Perm (merged c reports).internalErrors
  firstBug : (∃ r ∈ reports, ∃ first, r.findings.head? = some first ∧
      combined.firstBug = first.message) ∨
    (∀ r ∈ reports, r.findings = []) ∧ combined.firstBug = ""

theorem filterMap_getElem?_range {α : Type} (items : List α) :
    (List.range items.length).filterMap (items[·]?) = items := by
  induction items with
  | nil => rfl
  | cons a items ih =>
    rw [List.length_cons, List.range_succ_eq_map, List.filterMap_cons, List.filterMap_map]
    exact congrArg (a :: ·) ih

theorem description_isEmpty (c : Configuration) : (description c).isEmpty = false := by
  simp [description]

/-- The first bug is that of the first worker to finish among those with a finding. -/
theorem firstBug_of_headed {reports : List Report} {r : Report} (hr : r.Headed)
    (h : r.findings = reports.flatMap (·.findings)) :
    (∃ s ∈ reports, ∃ first, s.findings.head? = some first ∧ r.firstBug = first.message) ∨
      (∀ s ∈ reports, s.findings = []) ∧ r.firstBug = "" := by
  have hhead : r.findings.head? = reports.findSome? (·.findings.head?) := by
    rw [h, List.head?_flatMap]
  rw [hr.firstBug, hhead]
  cases hfirst : reports.findSome? (·.findings.head?) with
  | some first =>
    obtain ⟨s, hs, hsome⟩ := List.exists_of_findSome?_eq_some hfirst
    exact .inl ⟨s, hs, first, hsome, rfl⟩
  | none =>
    refine .inr ⟨fun s hs => ?_, rfl⟩
    exact List.head?_eq_none_iff.1 (List.findSome?_eq_none_iff.1 hfirst s hs)

theorem merged_findings (c : Configuration) (reports : List Report) :
    (merged c reports).findings = reports.flatMap (·.findings) :=
  Report.foldl_merge_eq_flatMap (f := (·.findings)) (fun _ _ => rfl) reports _

theorem merged_internalErrors (c : Configuration) (reports : List Report) :
    (merged c reports).internalErrors = reports.flatMap (·.internalErrors) :=
  Report.foldl_merge_eq_flatMap (f := (·.internalErrors)) (fun _ _ => rfl) reports _

theorem merged_strategy (c : Configuration) (reports : List Report) :
    (merged c reports).strategy = description c :=
  Report.strategy_foldl_merge (description_isEmpty c) reports

theorem combined_of_reports {reports : List Report} (hheaded : ∀ r ∈ reports, r.Headed)
    (horder : order.Perm (List.range reports.length)) :
    Combined c reports order (merged c (order.filterMap (reports[·]?))) := by
  have hperm : (order.filterMap (reports[·]?)).Perm reports := by
    have hworkers := horder.filterMap (reports[·]?)
    rwa [filterMap_getElem?_range] at hworkers
  have hfinished : (merged c (order.filterMap (reports[·]?))).Headed :=
    .foldl_merge (.new _) fun r hr => hheaded r (hperm.mem_iff.1 hr)
  refine ⟨Report.tally_foldl_merge hperm _, ?_, merged_findings _ _, ?_,
    merged_internalErrors _ _, ?_, ?_⟩
  · rw [merged_strategy, merged_strategy]
  · rw [merged_findings, merged_findings]
    exact hperm.flatMap_right _
  · rw [merged_internalErrors, merged_internalErrors]
    exact hperm.flatMap_right _
  · rcases firstBug_of_headed hfinished (merged_findings _ _) with ⟨r, hr, hsome⟩ | ⟨hall, hempty⟩
    · exact .inl ⟨r, hperm.mem_iff.1 hr, hsome⟩
    · exact .inr ⟨fun r hr => hall r (hperm.mem_iff.2 hr), hempty⟩

/-- The first worker with a fault, if there is one. -/
theorem reports_or_first_fault (results : List (Except Fault Report)) :
    (∃ reports : List Report, results = reports.map .ok) ∨
      ∃ (worker : Nat) (fault : Fault), results[worker]? = some (.error fault) ∧
        ∀ v < worker, ∃ report, results[v]? = some (.ok report) := by
  induction results with
  | nil => exact .inl ⟨[], rfl⟩
  | cons result results ih =>
    cases result with
    | error fault => exact .inr ⟨0, fault, rfl, nofun⟩
    | ok report =>
      rcases ih with ⟨reports, rfl⟩ | ⟨worker, fault, hfault, hfirst⟩
      · exact .inl ⟨report :: reports, rfl⟩
      · refine .inr ⟨worker + 1, fault, hfault, fun v hv => ?_⟩
        cases v with
        | zero => exact ⟨report, rfl⟩
        | succ v => exact hfirst v (by omega)

end Fleet
end Gathering

namespace Fleet

/-- The workers are given even shares of a configuration, each is run as if it were alone, and
whatever the order in which they finish, the result is the fault of the first worker that has one,
or the reports of all. -/
theorem gather_order_free {σ η : Type} (P : Program σ) (H : Host η) (host : η) {c : Configuration}
    {seed : UInt64} (hvalid : c.check = .ok ()) (hseed : c.seed = some seed)
    (htimeout : c.timeout = none) (drawn : UInt64) :
    SharedOut c (configurations c seed) ∧
      (∀ results, (∃ fuel, run fuel P H host c drawn = some results) ↔
        List.Forall₂ (fun d result => ∃ fuel, work fuel P H host d = some result)
          (configurations c seed) results) ∧
      ∀ fuel results, run fuel P H host c drawn = some results →
        ∀ order : List Nat, order.Perm (List.range (workerCount c)) →
          (∃ (worker : Nat) (fault : Fault), results[worker]? = some (.error fault) ∧
            (∀ v < worker, ∃ report, results[v]? = some (.ok report)) ∧
            gather c results order = .error fault) ∨
          ∃ reports combined, results = reports.map .ok ∧
            gather c results order = .ok combined ∧ Combined c reports order combined := by
  have hdrawn : c.seed.getD drawn = seed := by rw [hseed, Option.getD_some]
  refine ⟨configurations_sharedOut hvalid htimeout seed, fun results => ?_, ?_⟩
  · rw [exists_run_iff, hdrawn]
  · intro fuel results hrun order horder
    obtain ⟨hlength, hheaded⟩ := run_results hrun
    rw [← hlength] at horder
    rcases reports_or_first_fault results with ⟨reports, rfl⟩ | ⟨worker, fault, hfault, hfirst⟩
    · rw [List.length_map] at horder
      exact .inr ⟨reports, _, rfl, gather_of_reports reports order,
        combined_of_reports (fun r hr => hheaded r (List.mem_map_of_mem hr)) horder⟩
    · refine .inl ⟨worker, fault, hfault, hfirst, gather_of_fault (fun v => ?_) hfault hfirst⟩
      rw [horder.mem_iff, List.mem_range]

/-- Three iterations for two workers. -/
def threeForTwo : Configuration :=
  { strategy := .depthFirst, iterations := 3, workers := 2, seed := some 7 }

theorem gather_order_free_raisedFlag :
    threeForTwo.check = .ok () ∧ threeForTwo.seed = some 7 ∧ threeForTwo.timeout = none ∧
      SharedOut threeForTwo (configurations threeForTwo 7) ∧
      ∃ results, run 4 raisedFlag quietHost () threeForTwo 0 = some results ∧
        ∀ order : List Nat, order.Perm [0, 1] → ∃ reports combined, results = reports.map .ok ∧
          gather threeForTwo results order = .ok combined ∧
          Combined threeForTwo reports order combined := by
  obtain ⟨r, s, hrun⟩ : ∃ r s, run 4 raisedFlag quietHost () threeForTwo 0 =
      some [.ok r, .ok s] := ⟨_, _, rfl⟩
  obtain ⟨hshared, -, hgather⟩ :=
    gather_order_free raisedFlag quietHost () (c := threeForTwo) rfl rfl rfl 0
  refine ⟨rfl, rfl, rfl, hshared, _, hrun, fun order horder => ?_⟩
  rcases hgather 4 _ hrun order horder with ⟨worker, fault, hfault, -, -⟩ | hreports
  · have hmem := List.mem_of_getElem? hfault
    simp at hmem
  · exact hreports

/-- One unit expects the flag to be up and says nothing where it is down. -/
def muteFlag : Program (Option Bool) where
  __ := raisedFlag
  execute _ up := .check (up == some true) "" fun _ => .finish none

/-- The first bug that both workers find has no message, so that of the fleet has none. -/
theorem muteFlag_firstBug : ∃ r s combined,
    run 4 muteFlag quietHost () threeForTwo 0 = some [.ok r, .ok s] ∧
      r.bugFound = true ∧ s.bugFound = true ∧
      gather threeForTwo [.ok r, .ok s] [0, 1] = .ok combined ∧
      combined.bugFound = true ∧ combined.firstBug = "" := by
  obtain ⟨r, s, hrun, hr, hs, hfirst⟩ : ∃ r s,
      run 4 muteFlag quietHost () threeForTwo 0 = some [.ok r, .ok s] ∧ r.bugFound = true ∧
        s.bugFound = true ∧ (merged threeForTwo [r, s]).bugFound = true ∧
        (merged threeForTwo [r, s]).firstBug = "" := ⟨_, _, rfl, rfl, rfl, rfl, rfl⟩
  exact ⟨r, s, _, hrun, hr, hs, gather_of_reports [r, s] [0, 1], hfirst⟩

end Fleet
end Interleave
