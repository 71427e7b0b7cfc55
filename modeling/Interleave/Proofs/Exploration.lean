import Interleave.Campaign
import Interleave.Proofs.Conformance
import Interleave.Proofs.Pause.Simulation

/-!
# Interleave.Proofs.Exploration

A strategy run until it has nothing more to try: runs alternate with `prepare`, until that answers
false.

* `Explored`: all runs up to the last one.
* `Strategy.Series`: the runs made so far, where `prepare` has always answered true.
* `run_of_explored`: a campaign that is neither cancelled nor timed out makes these runs, as far as
  its budget goes.
-/

namespace Interleave

section Series

variable {σ τ η : Type}

/-- All runs of a strategy up to the one after which it has nothing more to try. -/
inductive Explored (fuel : Nat) (S : Strategy τ) (P : Program σ) :
    τ → List (Stop σ × Session τ) → Prop where
  | last {s : τ} {r : Stop σ × Session τ} : Session.drive fuel S P s = some r →
      (S.prepare r.2.strategy).1 = false → Explored fuel S P s [r]
  | more {s : τ} {r : Stop σ × Session τ} {rs : List (Stop σ × Session τ)} :
      Session.drive fuel S P s = some r → (S.prepare r.2.strategy).1 = true →
      Explored fuel S P (S.prepare r.2.strategy).2 rs → Explored fuel S P s (r :: rs)

variable {S : Strategy τ} {P : Program σ}

theorem Explored.mono {m n : Nat} {s : τ} {rs : List (Stop σ × Session τ)} (hmn : m ≤ n)
    (h : Explored m S P s rs) : Explored n S P s rs := by
  induction h with
  | last hr hp => exact .last (drive_mono hmn hr) hp
  | more hr hp _ ih => exact .more (drive_mono hmn hr) hp ih

/-- Runs made one after the other from a state, each followed by a `prepare` that has found more to
try, and the state that is left. -/
inductive Strategy.Series (S : Strategy τ) (P : Program σ) (start : τ) :
    List (Stop σ × Session τ) → τ → Prop where
  | nil : Series S P start [] start
  | snoc {rs : List (Stop σ × Session τ)} {s : τ} {fuel : Nat} {r : Stop σ × Session τ} :
      Series S P start rs s → Session.drive fuel S P s = some r →
      (S.prepare r.2.strategy).1 = true → Series S P start (rs ++ [r]) (S.prepare r.2.strategy).2

theorem reaches_pauseAt {start s : τ} (hs : S.Reaches start s) {n : Nat} {a : Pause σ τ}
    (ha : P.pauseAt S s n = some a) : S.Reaches start a.session.strategy := by
  refine pauseAt_induction (Q := fun a => S.Reaches start a.session.strategy) (fun a ha => ?_)
    (fun a b h hab => ?_) n a ha
  · rw [(opening_eq_inl ha).1]
    exact hs
  · obtain ⟨v, _, hstate, _⟩ := turn_eq_inl hab
    rw [hstate]
    exact .answer _ _ h

theorem reaches_concludes {start : τ} {x : Juncture σ τ} {r : Stop σ × Session τ}
    (hr : x.Concludes S P r) :
    S.Reaches start x.session.strategy → S.Reaches start r.2.strategy := by
  induction hr with
  | ended => exact id
  | @turn a r _ ih =>
    refine fun h => ih ?_
    rw [turn_strategy]
    exact .answer _ _ h

theorem reaches_drive {start s : τ} (hs : S.Reaches start s) {fuel : Nat}
    {r : Stop σ × Session τ} (hr : Session.drive fuel S P s = some r) :
    S.Reaches start r.2.strategy := by
  refine reaches_concludes (drive_eq_some_iff.1 ⟨fuel, hr⟩) ?_
  have hopening : (P.opening S s).session.strategy = s := (settle_framed S.isFull P _ _).strategy
  rw [hopening]
  exact hs

theorem Strategy.Series.reaches {start s : τ} {rs : List (Stop σ × Session τ)}
    (h : S.Series P start rs s) : S.Reaches start s := by
  induction h with
  | nil => exact .start
  | snoc _ hr _ ih => exact .prepare (reaches_drive ih hr)

theorem recordOutcome_schedules (report : Report) (attach : Bool) {o : Outcome}
    (h : o.divergence = none) :
    ∃ found report', report.recordOutcome attach o = .ok (found, report') ∧
      report'.schedules = report.schedules + 1 := by
  simp only [Report.recordOutcome, h]
  split
  · exact ⟨_, _, rfl, rfl⟩
  · exact ⟨_, _, rfl, rfl⟩

theorem recordRun_schedules (report : Report) (attach fair : Bool) (r : Stop σ × Session τ)
    {fuel : Nat} {s : τ} (hr : Session.drive fuel S P s = some r)
    (hdiv : r.2.divergence = none) :
    ∃ result found report', P.run fuel S s = some (result, r.2.strategy) ∧
      report.recordRun attach fair result = .ok (found, report') ∧
      report'.schedules = report.schedules + 1 := by
  obtain ⟨stop, t⟩ := r
  cases stop with
  | panicked message =>
    exact ⟨.error message, true, report.recordPanic message fair,
      by rw [Program.run, hr]; rfl, rfl, rfl⟩
  | ended ending p =>
    obtain ⟨found, report', hrecord, hcount⟩ := recordOutcome_schedules report attach
      ((outcome_divergence S P p ending t).trans hdiv)
    exact ⟨.ok (t.outcome S P p ending), found, report', by rw [Program.run, hr]; rfl,
      hrecord, hcount⟩

variable {H : Host η} {c : Configuration}

theorem stops_iff (htimeout : c.timeout = none) (hcancel : ∀ h, H.cancelled h = false)
    (completed : Nat) (h : η) :
    (Budget.ofConfiguration c).stops H completed h = decide (c.iterations.toNat ≤ completed) := by
  simp [Budget.stops, Budget.ofConfiguration, Configuration.untilTimeout, htimeout, hcancel]

theorem round_of_spent {fuel : Nat} (htimeout : c.timeout = none)
    (hcancel : ∀ h, H.cancelled h = false) (s : τ) {report : Report} (host : η)
    (hspent : report.schedules = c.iterations.toNat) :
    Campaign.round fuel S P H c ⟨s, host, report, report.schedules⟩ =
      some (.inr (.ok report, s, host)) := by
  simp [Campaign.round, stops_iff htimeout hcancel, hspent]

/-- A round within the budget makes a run, and the report counts it. -/
theorem round_of_drive {fuel : Nat} (htimeout : c.timeout = none)
    (hcancel : ∀ h, H.cancelled h = false) {s : τ} {r : Stop σ × Session τ}
    (hr : Session.drive fuel S P s = some r) (hdiv : r.2.divergence = none) {report : Report}
    (host : η) (hlt : report.schedules < c.iterations.toNat) :
    ∃ report' host', report'.schedules = report.schedules + 1 ∧
      Campaign.round fuel S P H c ⟨s, host, report, report.schedules⟩ =
        some (if (S.prepare r.2.strategy).1 then
          .inl ⟨(S.prepare r.2.strategy).2, host', report', report'.schedules⟩
        else .inr (.ok report', (S.prepare r.2.strategy).2, host')) := by
  obtain ⟨result, found, report', hrun, hrecord, hcount⟩ :=
    recordRun_schedules report c.attachTraces (S.isFair r.2.strategy) r hr hdiv
  refine ⟨report', H.iterationTeardown (H.setup host), hcount, ?_⟩
  have hgo : ¬ c.iterations.toNat ≤ report.schedules := by omega
  simp [Campaign.round, stops_iff htimeout hcancel, hgo, Campaign.runOnce, hrun, hrecord, hcount]

/-- By induction on the runs still to come; the report counts the rounds made. -/
theorem iterate_of_explored {fuel : Nat} (htimeout : c.timeout = none)
    (hcancel : ∀ h, H.cancelled h = false) {s : τ} {rs : List (Stop σ × Session τ)}
    (h : Explored fuel S P s rs) (hdiv : ∀ r ∈ rs, r.2.divergence = none) :
    ∀ (n : Nat) (report : Report) (host : η), rs.length < n →
      report.schedules ≤ c.iterations.toNat →
      ∃ report' s' host', iterate (Campaign.round fuel S P H c) n
          ⟨s, host, report, report.schedules⟩ = some (.ok report', s', host') ∧
        report'.schedules = min c.iterations.toNat (report.schedules + rs.length) := by
  induction h with
  | @last s r hr hp =>
    intro n report host hn hle
    obtain ⟨n, rfl⟩ : ∃ k, n = k + 1 := ⟨n - 1, by omega⟩
    rcases Nat.eq_or_lt_of_le hle with heq | hlt
    · refine ⟨report, s, host, ?_, by simp [heq]⟩
      rw [iterate, round_of_spent htimeout hcancel s host heq]
    · obtain ⟨report', host', hcount, hround⟩ :=
        round_of_drive (H := H) htimeout hcancel hr (hdiv r (by simp)) host hlt
      refine ⟨report', (S.prepare r.2.strategy).2, host', ?_, by
        simp only [List.length_singleton]; omega⟩
      rw [iterate, hround, hp]
      rfl
  | @more s r rs hr hp _ ih =>
    intro n report host hn hle
    obtain ⟨n, rfl⟩ : ∃ k, n = k + 1 := ⟨n - 1, by omega⟩
    rcases Nat.eq_or_lt_of_le hle with heq | hlt
    · refine ⟨report, s, host, ?_, by simp [heq]⟩
      rw [iterate, round_of_spent htimeout hcancel s host heq]
    · obtain ⟨report', host', hcount, hround⟩ :=
        round_of_drive (H := H) htimeout hcancel hr (hdiv r (by simp)) host hlt
      obtain ⟨last, s', host'', hrest, hlast⟩ := ih
        (fun r hr => hdiv r (List.mem_cons_of_mem _ hr)) n report' host'
        (Nat.lt_of_succ_lt_succ hn) (by omega)
      refine ⟨last, s', host'', ?_, by simp only [List.length_cons]; omega⟩
      rw [iterate, hround, if_pos hp]
      exact hrest

theorem run_of_explored {fuel : Nat} {start : τ} {rs : List (Stop σ × Session τ)} (host : η)
    (htimeout : c.timeout = none) (hcancel : ∀ h, H.cancelled h = false)
    (h : Explored fuel S P (S.reset start) rs) (hdiv : ∀ r ∈ rs, r.2.divergence = none)
    (hfuel : rs.length < fuel) :
    ∃ report s' host', Campaign.run fuel S P H c start host = some (.ok report, s', host') ∧
      report.schedules = min c.iterations.toNat rs.length := by
  obtain ⟨report, s', host', hrun, hcount⟩ := iterate_of_explored htimeout hcancel h hdiv fuel
    (.new (S.description start)) host hfuel (Nat.zero_le _)
  refine ⟨report, s', H.teardown host', ?_, by simpa [Report.new] using hcount⟩
  have hrun' : iterate (Campaign.round fuel S P H c) fuel
      ⟨S.reset start, host, .new (S.description start), 0⟩ = some (.ok report, s', host') := hrun
  simp [Campaign.run, hrun']

end Series
end Interleave
