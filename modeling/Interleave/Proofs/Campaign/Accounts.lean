import Interleave.Proofs.Demands
import Interleave.Proofs.Minimization
import Interleave.Proofs.Report.Balance

/-!
# Interleave.Proofs.Campaign.Accounts

What a series of runs gives account of, wherever it is cancelled and whatever its runs come to.

* `Host.calls`, `Host.around`: the hooks in the order in which they are called.
* `Campaign.Iteration`: a run of a series, with what it was asked and what it has come to.
* `Campaign.Ran`: runs one after the other, with one `prepare` after each.
* `Campaign.Underway`: what is true of the runs made so far; every round keeps it.
* `Campaign.Accounts`, `run_accounts`: what is true of the series when it is over.
-/

namespace Interleave

/-- What a host is called for. -/
inductive Host.Hook
  | setup
  | iterationTeardown
  | teardown
deriving DecidableEq

namespace Host

variable {η : Type}

def call (H : Host η) (h : η) : Hook → η
  | .setup => H.setup h
  | .iterationTeardown => H.iterationTeardown h
  | .teardown => H.teardown h

def calls (H : Host η) (h : η) (hooks : List Hook) : η := hooks.foldl H.call h

/-- The hooks around so many runs. -/
def around (runs : Nat) : List Hook := (List.replicate runs [.setup, .iterationTeardown]).flatten

theorem calls_append (H : Host η) (h : η) (hooks hooks' : List Hook) :
    H.calls h (hooks ++ hooks') = H.calls (H.calls h hooks) hooks' := List.foldl_append

theorem calls_around_succ (H : Host η) (h : η) (runs : Nat) :
    H.calls h (around (runs + 1)) = H.iterationTeardown (H.setup (H.calls h (around runs))) := by
  rw [around, List.replicate_succ', List.flatten_concat, calls_append]
  rfl

end Host

def Demand.isPrepare : Demand → Bool
  | .prepare => true
  | _ => false

theorem Strategy.after_append {τ : Type} (S : Strategy τ) (s : τ) (demands demands' : List Demand) :
    S.after s (demands ++ demands') = S.after (S.after s demands) demands' := List.foldl_append

namespace Campaign

/-- A run of a series. -/
structure Iteration (τ : Type) where
  asks : List Ask
  result : Except String Outcome
  /-- The strategy as the run left it. -/
  left : τ

namespace Iteration

variable {τ : Type}

/-- A run that panics has no outcome that diverges. -/
def divergence? (it : Iteration τ) : Option (Nat × Mismatch) :=
  match it.result with
  | .ok outcome => outcome.divergence
  | .error _ => none

def steps (it : Iteration τ) : Nat :=
  match it.result with
  | .ok outcome => outcome.steps
  | .error _ => 0

/-- A bug or a panic. -/
def failed (it : Iteration τ) : Bool :=
  match it.result with
  | .ok outcome => outcome.bug.isSome
  | .error _ => true

def panic? (it : Iteration τ) : Option String :=
  match it.result with
  | .ok _ => none
  | .error message => some message

/-- What the strategy meets with in this run and after it. -/
def demands (it : Iteration τ) : List Demand := it.asks.map .ask ++ [.prepare]

/-- What is recorded of a run that does not diverge. -/
def events (attachTrace fair : Bool) (it : Iteration τ) : List Report.Event :=
  match it.result with
  | .ok o =>
    [.schedule o.steps o.fair, .coverage o.coverage] ++ (o.bug.map fun bug => .finding
      { kind := bug.kind
        message := bug.message
        fair := o.fair
        trace := if attachTrace then o.trace else .empty
        narrative := o.narrative }).toList
  | .error message =>
    [.schedule 0 fair, .internalError message, .finding ⟨.internal, message, fair, .empty, []⟩]

/-- Only a divergence is a fault. -/
theorem recordRun_eq_error {it : Iteration τ} {r : Report} {attachTrace fair : Bool} {fault : Fault}
    (h : r.recordRun attachTrace fair it.result = .error fault) :
    ∃ step reason, it.divergence? = some (step, reason) ∧ fault = .diverged step reason := by
  rcases it with ⟨_, message | ⟨_ | bug, _, _, _, _, _, _, _ | ⟨step, reason⟩⟩, _⟩ <;> cases h
  · exact ⟨step, reason, rfl, rfl⟩
  · exact ⟨step, reason, rfl, rfl⟩

theorem recordRun_eq_ok {it : Iteration τ} {r r' : Report} {attachTrace fair found : Bool}
    (h : r.recordRun attachTrace fair it.result = .ok (found, r')) :
    it.divergence? = none ∧
      r' = (it.events attachTrace fair).foldl (fun r e => e.record r) r := by
  rcases it with ⟨_, message | ⟨_ | bug, _, _, _, _, _, _, _ | ⟨step, reason⟩⟩, _⟩ <;> cases h
  · exact ⟨rfl, rfl⟩
  · exact ⟨rfl, rfl⟩
  · exact ⟨rfl, rfl⟩

section Counts

variable (attachTrace : Bool)

theorem walks_events (fair : Bool) (it : Iteration τ) :
    (Report.walksOf (it.events attachTrace fair)).map (·.1) = [it.steps] := by
  rcases it with ⟨_, message | ⟨_ | bug, _⟩, _⟩ <;> rfl

theorem findings_events (fair : Bool) (it : Iteration τ) :
    (Report.findingsOf (it.events attachTrace fair)).length = [it].countP failed := by
  rcases it with ⟨_, message | ⟨_ | bug, _⟩, _⟩ <;> rfl

theorem failures_events (fair : Bool) (it : Iteration τ) :
    Report.failuresOf (it.events attachTrace fair) = [it].filterMap panic? := by
  rcases it with ⟨_, message | ⟨_ | bug, _⟩, _⟩ <;> rfl

variable (fair : Iteration τ → Bool)

/-- One schedule of each run, a bug of each that failed, an error of each that panicked. -/
theorem tallies (its : List (Iteration τ)) :
    let events := its.flatMap fun it => it.events attachTrace (fair it)
    (Report.walksOf events).map (·.1) = its.map steps ∧
      (Report.findingsOf events).length = its.countP failed ∧
      Report.failuresOf events = its.filterMap panic? := by
  induction its with
  | nil => exact ⟨rfl, rfl, rfl⟩
  | cons it its ih =>
    obtain ⟨hwalks, hfindings, hfailures⟩ := ih
    have hfirst := walks_events attachTrace (fair it) it
    have hfirst' := findings_events attachTrace (fair it) it
    have hfirst'' := failures_events attachTrace (fair it) it
    rw [List.flatMap_cons]
    refine ⟨?_, ?_, ?_⟩
    · rw [Report.walksOf, List.filterMap_append, List.map_append]
      exact congrArg₂ _ hfirst hwalks
    · rw [Report.findingsOf, List.filterMap_append, List.length_append, ← List.singleton_append,
        List.countP_append]
      exact congrArg₂ _ hfirst' hfindings
    · rw [Report.failuresOf, List.filterMap_append, ← List.singleton_append, List.filterMap_append]
      exact congrArg₂ _ hfirst'' hfailures

end Counts

end Iteration

section Rounds

variable {σ τ η : Type} {fuel : Nat} {S : Strategy τ} {P : Program σ} {H : Host η}
  {c : Configuration}

/-- The run is one that the strategy makes from this state. -/
structure Makes (fuel : Nat) (S : Strategy τ) (P : Program σ) (s : τ) (it : Iteration τ) :
    Prop where
  run : P.run fuel S s = some (it.result, it.left)
  asked : it.left = S.after s (it.asks.map .ask)

/-- In a run the strategy only answers requests. -/
theorem exists_iteration {s left : τ} {result : Except String Outcome}
    (hrun : P.run fuel S s = some (result, left)) :
    ∃ it : Iteration τ, it.result = result ∧ it.left = left ∧ Makes fuel S P s it := by
  obtain ⟨r, hr, rfl, -⟩ := run_eq_some hrun
  obtain ⟨asks, hasked⟩ : ∃ asks : List Ask, r.2.strategy = S.after s (asks.map .ask) := by
    refine (drive_eq_some_iff.1 ⟨fuel, hr⟩).strategy_induction
      (Q := fun t => ∃ asks : List Ask, t = S.after s (asks.map .ask)) ?_ ?_
    · rintro r scene t ⟨asks, rfl⟩
      refine ⟨asks ++ [⟨r, scene⟩], ?_⟩
      rw [List.map_append, Strategy.after_append]
      rfl
    · rw [Program.opening, (settle_framed _ P _ _).strategy]
      exact ⟨[], rfl⟩
  exact ⟨⟨asks, result, r.2.strategy⟩, rfl, rfl, hrun, hasked⟩

/-- The series with a run more in its report. -/
def counted (S : Strategy τ) (H : Host η) (c : Configuration) (k : Campaign τ η)
    (it : Iteration τ) : Campaign τ η where
  strategy := (S.prepare it.left).2
  host := H.iterationTeardown (H.setup k.host)
  report := (it.events c.attachTraces (S.isFair it.left)).foldl (fun r e => e.record r) k.report
  completed := k.completed + 1

/-- Runs made one after the other from a state, each followed by one `prepare`, and the state that
the last `prepare` leaves. -/
inductive Ran (fuel : Nat) (S : Strategy τ) (P : Program σ) (start : τ) :
    List (Iteration τ) → τ → Prop where
  | nil : Ran fuel S P start [] start
  | snoc {its : List (Iteration τ)} {s : τ} {it : Iteration τ} : Ran fuel S P start its s →
      Makes fuel S P s it → Ran fuel S P start (its ++ [it]) (S.prepare it.left).2

theorem Ran.after {start s : τ} {its : List (Iteration τ)} (h : Ran fuel S P start its s) :
    s = S.after start (its.flatMap Iteration.demands) := by
  induction h with
  | nil => rfl
  | snoc _ hmakes ih =>
    rw [List.flatMap_append, List.flatMap_singleton, Strategy.after_append, ← ih,
      Iteration.demands, Strategy.after_append, ← hmakes.asked]
    rfl

theorem countP_isPrepare (its : List (Iteration τ)) :
    (its.flatMap Iteration.demands).countP Demand.isPrepare = its.length := by
  have hasks (it : Iteration τ) : it.demands.countP Demand.isPrepare = 1 := by
    simp [Iteration.demands, List.countP_map, Function.comp_def, Demand.isPrepare]
  simp [List.countP_flatMap, Function.comp_def, hasks]

end Rounds

section Series

variable {σ τ η : Type} (fuel : Nat) (S : Strategy τ) (P : Program σ) (H : Host η)
  (c : Configuration) (strategy : τ) (host : η)

/-- The events of runs one after the other. -/
def eventsOf (its : List (Iteration τ)) : List Report.Event :=
  its.flatMap fun it => it.events c.attachTraces (S.isFair it.left)

/-- A series that has made these runs and goes on. -/
structure Underway (its : List (Iteration τ)) (k : Campaign τ η) : Prop where
  ran : Ran fuel S P (S.reset strategy) its k.strategy
  completed : k.completed = its.length
  host_eq : k.host = H.calls host (Host.around its.length)
  report_eq : k.report = Report.recorded (S.description strategy) (eventsOf S c its)
  begun : ∀ m < its.length,
    (Budget.ofConfiguration c).stops H m (H.calls host (Host.around m)) = false
  calm : ∀ it ∈ its, it.divergence? = none
  goesOn : ∀ it ∈ its, (S.prepare it.left).1 = true

/-- What a report says of the runs. -/
structure Tallied (its : List (Iteration τ)) (report : Report) : Prop where
  report_eq : report = Report.recorded (S.description strategy) (eventsOf S c its)
  schedules : report.schedules = its.length
  totalSteps : report.totalSteps = (its.map Iteration.steps).sum
  bugs : report.bugs = its.countP Iteration.failed
  internalErrors : report.internalErrors = its.filterMap Iteration.panic?

/-- A series of these runs that ends in a report. No run has diverged, and if iterations are left
the series was cancelled or there was nothing more to try. What the strategy has met with, be it one
that keeps a log, is a reset and then requests and one `prepare` for each run. -/
structure Reported (its : List (Iteration τ)) (report : Report) (s : τ) : Prop
    extends Tallied S c strategy its report where
  ran : Ran fuel S P (S.reset strategy) its s
  after_eq : s = S.after strategy (.reset :: its.flatMap Iteration.demands)
  prepares : (its.flatMap Iteration.demands).countP Demand.isPrepare = its.length
  calm : ∀ it ∈ its, it.divergence? = none
  early : its.length < c.iterations.toNat →
    H.cancelled (H.calls host (Host.around its.length)) = true ∨
      ∃ it ∈ its.getLast?, (S.prepare it.left).1 = false

/-- What is true of a series of these runs that is over. If it ends in a fault, this is the
divergence of the last run. -/
structure Accounts (its : List (Iteration τ)) (result : Except Fault Report) (s : τ) (host' : η) :
    Prop where
  ran : ∃ t, Ran fuel S P (S.reset strategy) its t
  hooks : host' = H.calls host (Host.around its.length ++ [.teardown])
  bounded : its.length ≤ c.iterations.toNat
  uncancelled : ∀ m < its.length, H.cancelled (H.calls host (Host.around m)) = false
  goesOn : ∀ it ∈ its.dropLast, (S.prepare it.left).1 = true
  calm : ∀ it ∈ its.dropLast, it.divergence? = none
  reported : ∀ report, result = .ok report → Reported fuel S P H c strategy host its report s
  broken : ∀ fault, result = .error fault → ∃ it ∈ its.getLast?, ∃ step reason,
    it.divergence? = some (step, reason) ∧ fault = .diverged step reason ∧ s = it.left

end Series

section Accounting

variable {σ τ η : Type} {fuel : Nat} {S : Strategy τ} {P : Program σ} {H : Host η}
  {c : Configuration} {strategy : τ} {host : η} {its : List (Iteration τ)} {k : Campaign τ η}

theorem Underway.opened : Underway fuel S P H c strategy host [] (opened S strategy host) :=
  ⟨.nil, rfl, rfl, rfl, nofun, nofun, nofun⟩

/-- A run more of the series, be it the last one. -/
theorem Underway.begun_succ (h : Underway fuel S P H c strategy host its k)
    (hgo : (Budget.ofConfiguration c).stops H k.completed k.host = false) :
    ∀ m < its.length + 1,
      (Budget.ofConfiguration c).stops H m (H.calls host (Host.around m)) = false := by
  intro m hm
  rcases Nat.lt_succ_iff_lt_or_eq.1 hm with hlt | rfl
  · exact h.begun m hlt
  · rw [← h.host_eq, ← h.completed]
    exact hgo

theorem Underway.counted_host (h : Underway fuel S P H c strategy host its k)
    (it : Iteration τ) :
    (counted S H c k it).host = H.calls host (Host.around (its ++ [it]).length) := by
  rw [List.length_append, List.length_singleton, Host.calls_around_succ, ← h.host_eq]
  rfl

theorem Underway.counted_report (h : Underway fuel S P H c strategy host its k)
    (it : Iteration τ) :
    (counted S H c k it).report =
      Report.recorded (S.description strategy) (eventsOf S c (its ++ [it])) := by
  rw [eventsOf, List.flatMap_append, List.flatMap_singleton, Report.recorded, List.foldl_append]
  show (it.events _ _).foldl _ k.report = _
  rw [h.report_eq]
  rfl

theorem Underway.more {it : Iteration τ} (h : Underway fuel S P H c strategy host its k)
    (hgo : (Budget.ofConfiguration c).stops H k.completed k.host = false)
    (hmakes : Makes fuel S P k.strategy it) (hcalm : it.divergence? = none)
    (hprepare : (S.prepare it.left).1 = true) :
    Underway fuel S P H c strategy host (its ++ [it]) (counted S H c k it) where
  ran := h.ran.snoc hmakes
  completed := by rw [List.length_append, ← h.completed]; rfl
  host_eq := h.counted_host it
  report_eq := h.counted_report it
  begun := by
    rw [List.length_append]
    exact h.begun_succ hgo
  calm := by simpa [or_imp, forall_and] using ⟨h.calm, hcalm⟩
  goesOn := by simpa [or_imp, forall_and] using ⟨h.goesOn, hprepare⟩

/-- What is not stopped is neither cancelled nor spent. -/
theorem going_of_stops_eq_false (htimeout : c.timeout = none) {completed : Nat} {h : η}
    (hgo : (Budget.ofConfiguration c).stops H completed h = false) :
    H.cancelled h = false ∧ completed < c.iterations.toNat := by
  simpa [Budget.stops, Budget.ofConfiguration, Configuration.untilTimeout, htimeout] using hgo

theorem cancelled_of_stops (htimeout : c.timeout = none) {completed : Nat} {h : η}
    (hstops : (Budget.ofConfiguration c).stops H completed h = true)
    (hleft : completed < c.iterations.toNat) : H.cancelled h = true := by
  simpa [Budget.stops, Budget.ofConfiguration, Configuration.untilTimeout, htimeout,
    Nat.not_le.2 hleft] using hstops

theorem tallied_recorded : Tallied S c strategy its
    (Report.recorded (S.description strategy) (eventsOf S c its)) := by
  have htells := Report.tells_recorded (S.description strategy) (eventsOf S c its)
  obtain ⟨hwalks, hfindings, hfailures⟩ :=
    Iteration.tallies c.attachTraces (fun it => S.isFair it.left) its
  refine ⟨rfl, ?_, ?_, ?_, ?_⟩
  · rw [htells.schedules, ← List.length_map (·.1)]
    exact (congrArg List.length hwalks).trans (List.length_map _)
  · rw [htells.totalSteps]
    exact congrArg List.sum hwalks
  · exact htells.bugs.trans hfindings
  · exact htells.internalErrors.trans hfailures

theorem bounded_of_begun (htimeout : c.timeout = none) {n : Nat} (hbegun : ∀ m < n,
    (Budget.ofConfiguration c).stops H m (H.calls host (Host.around m)) = false) :
    n ≤ c.iterations.toNat ∧ ∀ m < n, H.cancelled (H.calls host (Host.around m)) = false := by
  have hgoing := fun m hm => going_of_stops_eq_false htimeout (hbegun m hm)
  refine ⟨?_, fun m hm => (hgoing m hm).1⟩
  cases n with
  | zero => exact Nat.zero_le _
  | succ n => exact (hgoing n n.lt_succ_self).2

section Ends

variable (htimeout : c.timeout = none) (h : Underway fuel S P H c strategy host its k)
include htimeout h

/-- No further run is begun. -/
theorem Underway.ends (hstops : (Budget.ofConfiguration c).stops H k.completed k.host = true) :
    Accounts fuel S P H c strategy host its (.ok k.report) k.strategy (H.teardown k.host) := by
  obtain ⟨hbounded, huncancelled⟩ := bounded_of_begun htimeout h.begun
  refine ⟨⟨_, h.ran⟩, ?_, hbounded, huncancelled,
    fun it hit => h.goesOn it (List.mem_of_mem_dropLast hit),
    fun it hit => h.calm it (List.mem_of_mem_dropLast hit), fun report hreport => ?_, nofun⟩
  · rw [h.host_eq, Host.calls_append]
    rfl
  · cases hreport
    refine ⟨h.report_eq ▸ tallied_recorded, h.ran, h.ran.after, countP_isPrepare its, h.calm,
      fun hleft => ?_⟩
    rw [← h.host_eq]
    exact .inl (cancelled_of_stops htimeout hstops (h.completed ▸ hleft))

variable {it : Iteration τ} (hgo : (Budget.ofConfiguration c).stops H k.completed k.host = false)
  (hmakes : Makes fuel S P k.strategy it)
include hgo hmakes

/-- What the next run makes of the series does not depend on what comes of the run. -/
theorem Underway.next {result : Except Fault Report} {s : τ}
    (hreported : ∀ report, result = .ok report →
      Reported fuel S P H c strategy host (its ++ [it]) report s)
    (hbroken : ∀ fault, result = .error fault → ∃ step reason,
      it.divergence? = some (step, reason) ∧ fault = .diverged step reason ∧ s = it.left) :
    Accounts fuel S P H c strategy host (its ++ [it]) result s
      (H.teardown (counted S H c k it).host) := by
  have hbegun := h.begun_succ hgo
  rw [← List.length_singleton (a := it), ← List.length_append] at hbegun
  obtain ⟨hbounded, huncancelled⟩ := bounded_of_begun htimeout hbegun
  refine ⟨⟨_, h.ran.snoc hmakes⟩, ?_, hbounded, huncancelled, ?_, ?_, hreported, ?_⟩
  · rw [h.counted_host, Host.calls_append]
    rfl
  · rw [List.dropLast_concat]
    exact h.goesOn
  · rw [List.dropLast_concat]
    exact h.calm
  · exact fun fault hfault => ⟨it, List.getLast?_concat, hbroken fault hfault⟩

theorem Underway.diverges {step : Nat} {reason : Mismatch}
    (hdiverged : it.divergence? = some (step, reason)) :
    Accounts fuel S P H c strategy host (its ++ [it]) (.error (.diverged step reason)) it.left
      (H.teardown (counted S H c k it).host) := by
  refine h.next htimeout hgo hmakes nofun fun fault hfault => ?_
  cases hfault
  exact ⟨step, reason, hdiverged, rfl, rfl⟩

theorem Underway.last (hcalm : it.divergence? = none) (hprepare : (S.prepare it.left).1 = false) :
    Accounts fuel S P H c strategy host (its ++ [it]) (.ok (counted S H c k it).report)
      (counted S H c k it).strategy (H.teardown (counted S H c k it).host) := by
  refine h.next htimeout hgo hmakes (fun report hreport => ?_) nofun
  cases hreport
  have hran := h.ran.snoc hmakes
  exact ⟨h.counted_report it ▸ tallied_recorded, hran, hran.after, countP_isPrepare _,
    by simpa [or_imp, forall_and] using ⟨h.calm, hcalm⟩,
    fun _ => .inr ⟨it, List.getLast?_concat, hprepare⟩⟩

end Ends

/-- By induction on the rounds. -/
theorem accounts_of_run (htimeout : c.timeout = none) {result : Except Fault Report} {s : τ}
    {host' : η} (hrun : run fuel S P H c strategy host = some (result, s, host')) :
    ∃ its, Accounts fuel S P H c strategy host its result s host' := by
  obtain ⟨⟨result', s', h'⟩, hends, heq⟩ := Option.map_eq_some_iff.1 hrun
  cases heq
  refine iterate_induction (I := fun k => ∃ its, Underway fuel S P H c strategy host its k)
    (Q := fun b => ∃ its, Accounts fuel S P H c strategy host its b.1 b.2.1 (H.teardown b.2.2))
    hends ⟨[], .opened⟩ ?_ ?_
  · rintro k k' - ⟨its, hk⟩ hround
    cases comes_of_round hround with
    | more hgo hrun hrecord hprepare =>
      obtain ⟨it, rfl, rfl, hmakes⟩ := exists_iteration hrun
      obtain ⟨hcalm, rfl⟩ := Iteration.recordRun_eq_ok hrecord
      exact ⟨_, hk.more hgo hmakes hcalm hprepare⟩
  · rintro k b - ⟨its, hk⟩ hround
    cases comes_of_round hround with
    | ends hstops => exact ⟨_, hk.ends htimeout hstops⟩
    | fails hgo hrun hrecord =>
      obtain ⟨it, rfl, rfl, hmakes⟩ := exists_iteration hrun
      obtain ⟨step, reason, hdiverged, rfl⟩ := Iteration.recordRun_eq_error hrecord
      exact ⟨_, hk.diverges htimeout hgo hmakes hdiverged⟩
    | last hgo hrun hrecord hprepare =>
      obtain ⟨it, rfl, rfl, hmakes⟩ := exists_iteration hrun
      obtain ⟨hcalm, rfl⟩ := Iteration.recordRun_eq_ok hrecord
      exact ⟨_, hk.last htimeout hgo hmakes hcalm hprepare⟩

/-- A run that takes too many rounds is the only thing a series fails for, given enough rounds to
make all runs. -/
theorem exists_unending (htimeout : c.timeout = none) (hfuel : c.iterations.toNat < fuel)
    (hrun : run fuel S P H c strategy host = none) :
    ∃ k, Begins fuel S P H c strategy host k ∧ Session.drive fuel S P k.strategy = none := by
  -- every round that goes on leaves one run less to be made
  obtain ⟨k, hk, hround⟩ := iterate_eq_none (μ := fun k => c.iterations.toNat - k.completed)
    (fun k k' hround => by
      cases comes_of_round hround with
      | more hgo =>
        exact Nat.sub_succ_lt_self _ _ (going_of_stops_eq_false htimeout hgo).2)
    fuel (opened S strategy host) (Nat.lt_of_le_of_lt (Nat.sub_le _ _) hfuel)
    (Option.map_eq_none_iff.1 hrun)
  unfold round at hround
  split at hround
  · cases hround
  · rename_i hgo
    have honce := Option.map_eq_none_iff.1 hround
    exact ⟨k, ⟨hk, by simpa using hgo⟩,
      Option.map_eq_none_iff.1 (Option.map_eq_none_iff.1 honce)⟩

/-- A series without a timeout accounts for its runs: its hooks are called around each one and once
after the last, a report counts every run, and a fault is the divergence of the last one. Rounds
enough for all its runs are enough for the series, unless a run does not end. -/
theorem run_accounts (htimeout : c.timeout = none) (strategy : τ) (host : η) :
    (∀ result s host', run fuel S P H c strategy host = some (result, s, host') →
      ∃ its, Accounts fuel S P H c strategy host its result s host') ∧
    (c.iterations.toNat < fuel → run fuel S P H c strategy host = none →
      ∃ k, Begins fuel S P H c strategy host k ∧ Session.drive fuel S P k.strategy = none) :=
  ⟨fun _ _ _ => accounts_of_run htimeout, exists_unending htimeout⟩

end Accounting

end Campaign

/-- It notes what it is called for, and cancels the series after three runs. -/
def notingHost : Host (List Host.Hook) where
  setup hooks := hooks ++ [.setup]
  iterationTeardown hooks := hooks ++ [.iterationTeardown]
  teardown hooks := hooks ++ [.teardown]
  cancelled hooks := decide (6 ≤ hooks.length)
  elapsed _ := .zero

/-- One number is a bug, the next one a panic. -/
def wrongNumbers : Program Unit where
  fresh := ()
  start _ := .ask (.integer 5) fun
    | some 1 => .check false "one" fun _ => .finish ()
    | some 2 => .panic "two"
    | _ => .finish ()
  units _ := []
  current _ := none
  execute _ _ := .finish ()
  hotMonitors _ := []
  label _ _ := "worker"

/-- Three runs are made of ten, of which one has a bug and one panics. -/
theorem wrongNumbers_accounted : ∃ its report s host,
    Campaign.run 12 DepthFirst.strategy wrongNumbers notingHost tenRuns (.new 5) [] =
      some (.ok report, s, host) ∧
    Campaign.Accounts 12 DepthFirst.strategy wrongNumbers notingHost tenRuns (.new 5) [] its
      (.ok report) s host ∧
    report.schedules = 3 ∧ report.bugs = 2 ∧ report.internalErrors = ["two"] := by
  let result := Campaign.run 12 DepthFirst.strategy wrongNumbers notingHost tenRuns (.new 5) []
  have htest : result.any (fun x => x.1.toOption.any fun report => decide (report.schedules = 3 ∧
      report.bugs = 2 ∧ report.internalErrors = ["two"])) = true := by decide +kernel
  obtain ⟨⟨outcome, s, host⟩, hrun, hreport⟩ := (Option.any_eq_true _ _).1 htest
  obtain ⟨report, houtcome, hcounts⟩ := (Option.any_eq_true _ _).1 hreport
  obtain rfl : outcome = .ok report := by
    cases outcome <;> cases houtcome
    rfl
  obtain ⟨its, haccounts⟩ := (Campaign.run_accounts rfl _ _).1 _ _ _ hrun
  exact ⟨its, report, s, host, hrun, haccounts, of_decide_eq_true hcounts⟩

end Interleave
