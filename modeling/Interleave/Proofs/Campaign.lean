import Interleave.Proofs.Exploration
import Interleave.Proofs.Layer.Plans
import Interleave.Proofs.Liveness.Lasso
import Mathlib.Logic.Relation

/-!
# Interleave.Proofs.Campaign

Series of runs under a search that goes back over its path, be it under the liveness check. In each
run the search expects the requests that its path was made of.

* `Campaign.Begins`: the runs that a series comes to.
* `Campaign.Comes`: what one round of a series comes to.
* `report_of_keeps`: a series ends in a report where no run diverges.
* `watched_search_reports`: a search goes back over its path under the liveness check too, as long
  as the check begins every run as it was made.
* `restless_diverges`: a cycle that is still being repeated when a run ends is repeated in the next
  one, and the search is not asked for what it expects.
-/

namespace Interleave

/-- Rounds that do not end the repetition lead from one state to another one. -/
abbrev GoesOn {α β : Type} (round : α → Option (α ⊕ β)) : α → α → Prop :=
  Relation.ReflTransGen fun a a' => round a = some (.inl a')

theorem iterate_induction {α β : Type} {round : α → Option (α ⊕ β)} {I : α → Prop} {Q : β → Prop}
    {n : Nat} {start : α} {b : β} (h : iterate round n start = some b) (hstart : I start)
    (hnext : ∀ {a a'}, GoesOn round start a → I a → round a = some (.inl a') → I a')
    (hlast : ∀ {a b}, GoesOn round start a → I a → round a = some (.inr b) → Q b) : Q b :=
  (ends_of_iterate _ _ _ h).of_invariant (I := fun a => GoesOn round start a ∧ I a) ⟨.refl, hstart⟩
    (fun ha hround => ⟨ha.1.tail hround, hnext ha.1 ha.2 hround⟩)
    fun ha hround => hlast ha.1 ha.2 hround

/-- Where every round uses something up, only a round without an answer keeps the repetition from
ending. -/
theorem iterate_eq_none {α β : Type} {round : α → Option (α ⊕ β)} {μ : α → Nat}
    (hdescends : ∀ a a', round a = some (.inl a') → μ a' < μ a) :
    ∀ (n : Nat) (a : α), μ a < n → iterate round n a = none →
      ∃ a', GoesOn round a a' ∧ round a' = none := by
  intro n
  induction n with
  | zero => exact fun a ha => absurd ha (Nat.not_lt_zero _)
  | succ n ih =>
    intro a ha h
    rw [iterate] at h
    split at h
    · rename_i hnone
      exact ⟨a, .refl, hnone⟩
    · rename_i a' hnext
      obtain ⟨b, hb, hnone⟩ := ih a' (by have := hdescends a a' hnext; omega) h
      exact ⟨b, .head hnext hb, hnone⟩
    · cases h

/-- A repetition that ends with its second round. -/
theorem goesOn_of_two {α β : Type} {round : α → Option (α ⊕ β)} {first second a : α}
    (h : GoesOn round first a) (hfirst : round first = some (.inl second))
    (hsecond : (round second).any Sum.isRight = true) : a = first ∨ a = second := by
  rcases h.cases_head with rfl | ⟨b, hb, hrest⟩
  · exact .inl rfl
  · cases hfirst.symm.trans hb
    rcases hrest.cases_head with rfl | ⟨c, hc, _⟩
    · exact .inr rfl
    · rw [hc] at hsecond
      cases hsecond

/-- The second state of a repetition, by evaluation. -/
theorem exists_second {α β : Type} {round : α → Option (α ⊕ β)} {first : α} {test : α → Bool}
    (h : ((round first).bind Sum.getLeft?).any test = true) :
    ∃ second, round first = some (.inl second) ∧ test second = true := by
  obtain ⟨second, hsecond, htest⟩ := (Option.any_eq_true _ _).1 h
  obtain ⟨x, hround, hx⟩ := Option.bind_eq_some_iff.1 hsecond
  rw [Sum.getLeft?_eq_some_iff] at hx
  exact ⟨second, hx ▸ hround, htest⟩

/-- Whether a result is this fault. -/
def endsIn {α β : Type} (fault : Fault) : Option (Except Fault α × β) → Bool
  | some (.error fault', _) => decide (fault' = fault)
  | _ => false

theorem eq_of_endsIn {α β : Type} {fault : Fault} {x : Option (Except Fault α × β)}
    (h : endsIn fault x = true) : ∃ y, x = some (.error fault, y) := by
  unfold endsIn at h
  split at h
  · rw [decide_eq_true_eq] at h
    exact ⟨_, by rw [h]⟩
  · cases h

namespace Campaign

variable {σ τ η : Type} {fuel : Nat} {S : Strategy τ} {P : Program σ} {H : Host η}
  {c : Configuration}

def opened (S : Strategy τ) (strategy : τ) (host : η) : Campaign τ η :=
  ⟨S.reset strategy, host, .new (S.description strategy), 0⟩

/-- A series comes to a state from which it begins another run. -/
def Begins (fuel : Nat) (S : Strategy τ) (P : Program σ) (H : Host η) (c : Configuration)
    (strategy : τ) (host : η) (k : Campaign τ η) : Prop :=
  GoesOn (round fuel S P H c) (opened S strategy host) k ∧
    (Budget.ofConfiguration c).stops H k.completed k.host = false

/-- A run that is carried out. -/
theorem run_eq_some {s s' : τ} {result : Except String Outcome}
    (hrun : P.run fuel S s = some (result, s')) :
    ∃ r, Session.drive fuel S P s = some r ∧ s' = r.2.strategy ∧
      (r.2.divergence = none → ∀ (report : Report) attach fair, ∃ found report',
        report.recordRun attach fair result = .ok (found, report')) := by
  obtain ⟨r, hr, heq⟩ := Option.map_eq_some_iff.1 hrun
  refine ⟨r, hr, ?_, fun hdiv report attach fair => ?_⟩
  · obtain ⟨stop, t⟩ := r
    cases stop <;> cases heq <;> rfl
  · obtain ⟨result', found, report', hrun', hrecord, -⟩ :=
      recordRun_schedules report attach fair r hr hdiv
    rw [hrun] at hrun'
    cases hrun'
    exact ⟨found, report', hrecord⟩

theorem runOnce_eq_some {s s' : τ} {h h' : η} {result : Except String Outcome}
    (honce : runOnce fuel S P H s h = some (result, s', h')) :
    P.run fuel S s = some (result, s') ∧ h' = H.iterationTeardown (H.setup h) := by
  obtain ⟨⟨result', s''⟩, hrun, heq⟩ := Option.map_eq_some_iff.1 honce
  cases heq
  exact ⟨hrun, rfl⟩

/-- What a round of a series comes to: no run is begun, or the run is a fault, or it is taken into
the report and the strategy says whether it has more to try. -/
inductive Comes (fuel : Nat) (S : Strategy τ) (P : Program σ) (H : Host η) (c : Configuration)
    (k : Campaign τ η) : Campaign τ η ⊕ (Except Fault Report × τ × η) → Prop where
  | ends : (Budget.ofConfiguration c).stops H k.completed k.host = true →
      Comes fuel S P H c k (.inr (.ok k.report, k.strategy, k.host))
  | fails {result : Except String Outcome} {s : τ} {fault : Fault} :
      (Budget.ofConfiguration c).stops H k.completed k.host = false →
      P.run fuel S k.strategy = some (result, s) →
      k.report.recordRun c.attachTraces (S.isFair s) result = .error fault →
      Comes fuel S P H c k (.inr (.error fault, s, H.iterationTeardown (H.setup k.host)))
  | more {result : Except String Outcome} {s : τ} {found : Bool} {report : Report} :
      (Budget.ofConfiguration c).stops H k.completed k.host = false →
      P.run fuel S k.strategy = some (result, s) →
      k.report.recordRun c.attachTraces (S.isFair s) result = .ok (found, report) →
      (S.prepare s).1 = true →
      Comes fuel S P H c k (.inl ⟨(S.prepare s).2, H.iterationTeardown (H.setup k.host), report,
        k.completed + 1⟩)
  | last {result : Except String Outcome} {s : τ} {found : Bool} {report : Report} :
      (Budget.ofConfiguration c).stops H k.completed k.host = false →
      P.run fuel S k.strategy = some (result, s) →
      k.report.recordRun c.attachTraces (S.isFair s) result = .ok (found, report) →
      (S.prepare s).1 = false →
      Comes fuel S P H c k (.inr (.ok report, (S.prepare s).2,
        H.iterationTeardown (H.setup k.host)))

theorem comes_of_round {k : Campaign τ η} {x : Campaign τ η ⊕ (Except Fault Report × τ × η)}
    (h : round fuel S P H c k = some x) : Comes fuel S P H c k x := by
  unfold round at h
  split at h
  · rename_i hstops
    cases h
    exact .ends hstops
  · rename_i hgo
    have hgo : (Budget.ofConfiguration c).stops H k.completed k.host = false := by simpa using hgo
    obtain ⟨⟨result, s, host⟩, honce, rfl⟩ := Option.map_eq_some_iff.1 h
    obtain ⟨hrun, rfl⟩ := runOnce_eq_some honce
    dsimp only
    split
    · rename_i hrecord
      exact .fails hgo hrun hrecord
    · rename_i hrecord
      split
      · rename_i hprepare
        exact .more hgo hrun hrecord hprepare
      · rename_i hprepare
        exact .last hgo hrun hrecord (by simpa using hprepare)

/-- What becomes of a series whose next run does not diverge. -/
theorem round_cases {k : Campaign τ η} {x : Campaign τ η ⊕ (Except Fault Report × τ × η)}
    (h : round fuel S P H c k = some x)
    (hruns : (Budget.ofConfiguration c).stops H k.completed k.host = false →
      ∀ r, Session.drive fuel S P k.strategy = some r → r.2.divergence = none) :
    (∃ report s host, x = .inr (.ok report, s, host)) ∨
    (Budget.ofConfiguration c).stops H k.completed k.host = false ∧
      ∃ r k', Session.drive fuel S P k.strategy = some r ∧ x = .inl k' ∧
        k'.strategy = (S.prepare r.2.strategy).2 := by
  cases comes_of_round h with
  | ends => exact .inl ⟨_, _, _, rfl⟩
  | fails hgo hrun hrecord =>
    obtain ⟨r, hr, -, hrecorded⟩ := run_eq_some hrun
    obtain ⟨found, report, hreport⟩ := hrecorded (hruns hgo r hr) k.report _ _
    cases hrecord.symm.trans hreport
  | more hgo hrun =>
    obtain ⟨r, hr, rfl, -⟩ := run_eq_some hrun
    exact .inr ⟨hgo, r, _, hr, rfl, rfl⟩
  | last => exact .inl ⟨_, _, _, rfl⟩

/-- By induction on the runs: what the strategy is like when a run begins is kept. -/
theorem report_of_keeps {start : τ} {host : η} {I : τ → Prop} (hstart : I (S.reset start))
    (hkeeps : ∀ k, Begins fuel S P H c start host k → I k.strategy →
      ∀ r, Session.drive fuel S P k.strategy = some r →
        r.2.divergence = none ∧ I (S.prepare r.2.strategy).2)
    {result : Except Fault Report} {s : τ} {host' : η}
    (hrun : run fuel S P H c start host = some (result, s, host')) :
    ∃ report, result = .ok report := by
  obtain ⟨⟨result', s', h'⟩, hends, heq⟩ := Option.map_eq_some_iff.1 hrun
  cases heq
  refine iterate_induction (I := fun k => I k.strategy) (Q := fun b => ∃ report, b.1 = .ok report)
    hends hstart ?_ ?_
  · intro k k' hbegun hk hround
    have hruns := fun hgo => hkeeps k ⟨hbegun, hgo⟩ hk
    rcases round_cases hround fun hgo r hr => (hruns hgo r hr).1 with
      ⟨_, _, _, hend⟩ | ⟨hgo, r, _, hr, hnext, hstrategy⟩
    · cases hend
    · cases hnext
      exact hstrategy ▸ (hruns hgo r hr).2
  · intro k b hbegun hk hround
    rcases round_cases hround fun hgo r hr => (hkeeps k ⟨hbegun, hgo⟩ hk r hr).1 with
      ⟨report, _, _, hend⟩ | ⟨_, _, _, _, hnext, _⟩
    · cases hend
      exact ⟨report, rfl⟩
    · cases hnext

end Campaign

section Search

variable {σ η : Type}

/-- Under any configuration, a series of runs ends in a report, never in a divergence, if the
liveness check begins every run over a search as it was made: no cycle is being repeated any more,
and no window has been drawn. -/
theorem watched_search_reports {c : Configuration} {drawn : UInt64} {p : Plan}
    (hplan : c.campaignPlan drawn = .ok p) (P : Program σ) (H : Host η) (host : η) (fuel : Nat)
    (hnew : ∀ k, Campaign.Begins fuel p.strategy P H c p.start host k → p.CheckIsNew k.strategy)
    {result : Except Fault Report} {s : p.State} {host' : η}
    (hrun : Campaign.run fuel p.strategy P H c p.start host = some (result, s, host')) :
    ∃ report, result = .ok report := by
  have hplan : c.plan drawn = .ok p := by
    unfold Configuration.campaignPlan at hplan
    generalize c.validate = valid at hplan
    cases valid with
    | error fault => cases hplan
    | ok => exact hplan
  rcases plan_fits hplan with hnever | ⟨φ, τ, F, S, frame, base, bound, Keeps, hlayered⟩
  · refine Campaign.report_of_keeps (I := fun _ => True) trivial (fun k _ _ r hr => ?_) hrun
    exact ⟨consistent_of_neverDiverges hnever (drive_eq_some_iff.1 ⟨fuel, hr⟩)
      (settle_framed _ P _ _).divergence, trivial⟩
  · refine Campaign.report_of_keeps
      (I := ReadyFrom F base bound P Keeps (frame p.start)) ?_ (fun k hk hready r hr => ?_) hrun
    · refine ⟨[], ?_, _, .nil⟩
      rw [hlayered.stands.reset]
      exact hlayered.backtracks.reset hlayered.start
    · rw [← hlayered.new (hnew k hk)] at hready ⊢
      exact hready.run hlayered.stands hlayered.consistent hlayered.backtracks
        (drive_eq_some_iff.1 ⟨fuel, hr⟩)

end Search

theorem Detector.eq_new_iff {d : Detector} {seed : UInt64} {safetyPrefix threshold : Nat} :
    d = .new seed safetyPrefix threshold ↔ d.source = .ofSeed seed ∧
      d.safetyPrefix = safetyPrefix ∧ d.threshold = threshold ∧ d.chase.isNone = true ∧
      d.replayed = 0 := by
  obtain ⟨_, _, _, _, _⟩ := d
  simp [new]

instance {d : Detector} {seed : UInt64} {safetyPrefix threshold : Nat} :
    Decidable (d = .new seed safetyPrefix threshold) :=
  decidable_of_iff _ Detector.eq_new_iff.symm

/-- A boolean is chosen, then a monitor waits for ever. -/
def idleAfterBoolean : Program Unit where
  __ := idleWorker
  start _ := .ask (.boolean 2) fun _ => .tell (.monitor "progress" "Waiting" .hot) (.finish ())

def wary : Configuration :=
  { strategy := .depthFirst, detectCycles := true, seed := some 1, iterations := 10 }

abbrev waryPlan : Plan := .watch 1 0 0 (.depthFirst 10000)

/-- Both runs end where the cycle is reported. -/
theorem idleAfterBoolean_reports : wary.campaignPlan 0 = .ok waryPlan ∧ ∃ report s host,
    Campaign.run 20 waryPlan.strategy idleAfterBoolean quietHost wary waryPlan.start () =
      some (.ok report, s, host) := by
  have hplan : wary.campaignPlan 0 = .ok waryPlan := rfl
  let round := Campaign.round 20 waryPlan.strategy idleAfterBoolean quietHost wary
  let first := Campaign.opened waryPlan.strategy waryPlan.start ()
  obtain ⟨second, hfirst, htest⟩ := exists_second
    (show ((round first).bind Sum.getLeft?).any (fun second =>
      decide (second.strategy.detector = .new 1 0 0) && (round second).any Sum.isRight) = true by
        decide +kernel)
  rw [Bool.and_eq_true, decide_eq_true_eq] at htest
  have hbegun : ∀ k, Campaign.Begins 20 waryPlan.strategy idleAfterBoolean quietHost wary
      waryPlan.start () k → waryPlan.CheckIsNew k.strategy := by
    rintro k ⟨hk, -⟩ -
    rcases goesOn_of_two hk hfirst htest.2 with rfl | rfl
    · rfl
    · exact htest.1
  obtain ⟨⟨result, s, host⟩, hrun⟩ := Option.isSome_iff_exists.1
    (show (Campaign.run 20 waryPlan.strategy idleAfterBoolean quietHost wary waryPlan.start
      ()).isSome = true by decide +kernel)
  obtain ⟨report, rfl⟩ :=
    watched_search_reports hplan idleAfterBoolean quietHost () 20 hbegun hrun
  exact ⟨hplan, report, s, host, hrun⟩

/-- Two units run twice each while a monitor waits. -/
def restless : Program (Nat × Nat) where
  fresh := (2, 2)
  start p := .tell (.monitor "progress" "Waiting" .hot) (.finish p)
  units p := [⟨⟨1⟩, .actor, decide (0 < p.1), none⟩, ⟨⟨2⟩, .actor, decide (0 < p.2), none⟩]
  current _ := none
  execute u p := .finish (if u = ⟨1⟩ then (p.1 - 1, p.2) else (p.1, p.2 - 1))
  hotMonitors _ := []
  label _ _ := "worker"

/-- The first run ends while a cycle is being repeated. The second one begins with that cycle, and
the search is asked for its first step when the program has gone on. -/
theorem restless_diverges : wary.campaignPlan 0 = .ok waryPlan ∧ ∃ s host,
    Campaign.run 20 waryPlan.strategy restless quietHost wary waryPlan.start () =
      some (.error (.diverged 0 .otherRequest), s, host) := by
  obtain ⟨⟨s, host⟩, hrun⟩ := eq_of_endsIn
    (show endsIn (.diverged 0 .otherRequest) (Campaign.run 20 waryPlan.strategy restless quietHost
      wary waryPlan.start ()) = true by decide +kernel)
  exact ⟨rfl, s, host, hrun⟩

end Interleave
