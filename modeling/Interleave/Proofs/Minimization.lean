import Interleave.Minimize.Minimization
import Interleave.Proofs.Campaign
import Interleave.Proofs.Schedule.OneShots

/-!
# Interleave.Proofs.Minimization

The bisection of a trace with a search for the suffix. Where the program does not follow the trace
the suffix takes over, and it is asked for what it expects as long as the trace is followed equally
far.

* `Minimization.Begins`: the runs that a bisection comes to.
* `Forked.Rested.run`: a run at the same length finds the suffix on its path; another length needs
  a suffix without one.
* `minimization_reports`: the bisection ends in a report if the suffix has nothing left to try
  whenever the length is changed.
* `other_prefix_diverges`: a suffix that has a path left does not fit another length.
-/

namespace Interleave

namespace Minimization

variable {σ τ η : Type} {fuel : Nat} {B : Bisecting τ} {P : Program σ} {H : Host η}
  {c : Configuration}

def opened (B : Bisecting τ) (strategy : τ) (host : η) : Minimization τ η :=
  ⟨.opened B.toStrategy strategy host, 0, true⟩

/-- A bisection comes to a state from which it begins another run. -/
def Begins (fuel : Nat) (B : Bisecting τ) (P : Program σ) (H : Host η) (c : Configuration)
    (strategy : τ) (host : η) (m : Minimization τ η) : Prop :=
  GoesOn (round fuel B P H c) (opened B strategy host) m ∧
    (Budget.ofConfiguration c).stops H m.campaign.completed m.campaign.host = false

/-- What becomes of a bisection whose next run does not diverge. -/
theorem round_cases {m : Minimization τ η}
    {x : Minimization τ η ⊕ (Except Fault MinimizationReport × τ × η)}
    (h : round fuel B P H c m = some x)
    (hruns : (Budget.ofConfiguration c).stops H m.campaign.completed m.campaign.host = false →
      ∀ r, Session.drive fuel B.toStrategy P m.campaign.strategy = some r →
        r.2.divergence = none) :
    (∃ report s host, x = .inr (.ok report, s, host)) ∨
    (Budget.ofConfiguration c).stops H m.campaign.completed m.campaign.host = false ∧
      ∃ r m', Session.drive fuel B.toStrategy P m.campaign.strategy = some r ∧ x = .inl m' ∧
        (m'.campaign.strategy = (B.prepare r.2.strategy).2 ∨
          ∃ found, m'.campaign.strategy = (B.update found (B.prepare r.2.strategy).2).2) := by
  unfold round at h
  dsimp only at h
  split at h
  · cases h
    exact .inl ⟨_, _, _, rfl⟩
  · rename_i hgo
    rw [Bool.not_eq_true] at hgo
    obtain ⟨⟨result, s, host⟩, hrun, heq⟩ := Option.map_eq_some_iff.1 h
    obtain ⟨r, hr, rfl, hrecord⟩ := Campaign.run_eq_some (Campaign.runOnce_eq_some hrun).1
    obtain ⟨found, report, hreport⟩ :=
      hrecord (hruns hgo r hr) m.campaign.report c.attachTraces (B.isFair r.2.strategy)
    simp only [hreport] at heq
    split at heq
    · exact .inr ⟨hgo, r, _, hr, heq.symm, .inl rfl⟩
    · split at heq
      · exact .inr ⟨hgo, r, _, hr, heq.symm, .inr ⟨_, rfl⟩⟩
      · exact .inl ⟨_, _, _, heq.symm⟩

/-- By induction on the runs, as for a series. -/
theorem report_of_keeps {start : τ} {host : η} {I : τ → Prop} (hstart : I (B.reset start))
    (hkeeps : ∀ m, Begins fuel B P H c start host m → I m.campaign.strategy →
      ∀ r, Session.drive fuel B.toStrategy P m.campaign.strategy = some r →
        r.2.divergence = none ∧ I (B.prepare r.2.strategy).2 ∧
          ∀ found, I (B.update found (B.prepare r.2.strategy).2).2)
    {result : Except Fault MinimizationReport} {s : τ} {host' : η}
    (hrun : run fuel B P H c start host = some (result, s, host')) :
    ∃ report, result = .ok report := by
  obtain ⟨⟨result', s', h'⟩, hends, heq⟩ := Option.map_eq_some_iff.1 hrun
  cases heq
  refine iterate_induction (I := fun m => I m.campaign.strategy)
    (Q := fun b => ∃ report, b.1 = .ok report) hends hstart ?_ ?_
  · intro m m' hbegun hm hround
    have hruns := fun hgo => hkeeps m ⟨hbegun, hgo⟩ hm
    rcases round_cases hround fun hgo r hr => (hruns hgo r hr).1 with
      ⟨_, _, _, hend⟩ | ⟨hgo, r, _, hr, hnext, hstrategy⟩
    · cases hend
    · cases hnext
      obtain ⟨_, hprepared, hupdated⟩ := hruns hgo r hr
      rcases hstrategy with hstrategy | ⟨found, hstrategy⟩
      · exact hstrategy ▸ hprepared
      · exact hstrategy ▸ hupdated found
  · intro m b hbegun hm hround
    rcases round_cases hround fun hgo r hr => (hkeeps m ⟨hbegun, hgo⟩ hm r hr).1 with
      ⟨report, _, _, hend⟩ | ⟨_, _, _, _, hnext, _⟩
    · cases hend
      exact ⟨report, rfl⟩
    · cases hnext

end Minimization

section Suffix

variable {σ φ ν τ : Type}

/-- What every answer of a strategy keeps holds at the end of a run. -/
theorem Juncture.Concludes.strategy_induction {L : Strategy ν} {P : Program σ} {Q : ν → Prop}
    (hanswer : ∀ r scene s, Q s → Q (L.answer r scene s).state) {x : Juncture σ ν}
    {r : Stop σ × Session ν} (h : x.Concludes L P r) :
    Q x.session.strategy → Q r.2.strategy := by
  induction h with
  | ended => exact id
  | turn _ ih =>
    intro hs
    refine ih ?_
    rw [turn_strategy]
    exact hanswer _ _ _ hs

/-- A run changes nothing but how far the trace has been followed. -/
theorem Transition.beginRun_consult (r : Request) (t : Transition) :
    (t.consult r).2.beginRun = t.beginRun := by
  unfold consult
  repeat' split
  all_goals rfl

theorem Forked.beginRun_answer (S : Strategy ν) (r : Request) (scene : Scene) (s : Forked ν) :
    ((Forked.strategy S).answer r scene s).state.transition.beginRun = s.transition.beginRun := by
  show (Forked.answer S r scene s).state.transition.beginRun = _
  have ht := s.transition.beginRun_consult r
  unfold Forked.answer
  generalize s.transition.consult r = c at ht
  obtain ⟨verdict, t⟩ := c
  cases verdict <;> exact ht

/-- A bisection between two runs. If a run at the present length has been closed, the suffix has a
path that can be followed at this length. -/
structure Forked.Rested (F : Layer φ) (base : ν → τ) (bound : Nat) (P : Program σ)
    (Keeps : τ → List Exchange → List Exchange → Prop) (f : φ) (s : Forked ν) : Prop where
  begins : s.transition.beginRun = s.transition
  keeps : ∃ given, Keeps (base s.suffix) [] given ∧ (s.transition.walks ≠ 0 →
    ∃ y, F.fork.Leads bound P (F.fork.root bound P ({ s.transition with walks := 0 }, f)) given y)

section Rested

variable {p : Plan} {F : Layer φ} {S : Strategy τ} {frame : p.State → φ} {base : p.State → τ}
  {bound : Nat} {P : Program σ} {Keeps : τ → List Exchange → List Exchange → Prop} {f : φ}
  {s : Forked p.State}

theorem Forked.Rested.of_start (hp : p.Layered F S frame base bound Keeps)
    (hs : s.suffix = p.start) :
    ((Forked.strategy p.strategy).reset s).Rested F base bound P Keeps f := by
  refine ⟨rfl, [], ?_, fun _ => ⟨_, .nil⟩⟩
  show Keeps (base (p.strategy.reset s.suffix)) [] []
  rw [hs, hp.stands.reset]
  exact hp.backtracks.reset hp.start

/-- Another length may be tried next in any case. -/
theorem Forked.Rested.update (h : s.Rested F base bound P Keeps f) (found : Bool) :
    ((Forked.bisecting p.strategy).update found s).2.Rested F base bound P Keeps f := by
  obtain ⟨given, hgiven, -⟩ := h.keeps
  exact ⟨congrArg (fun t => (t.updateBounds found).2) h.begins, given, hgiven,
    fun hwalks => absurd rfl hwalks⟩

theorem Forked.Rested.ready (hp : p.Layered F S frame base bound Keeps)
    (h : s.Rested F base bound P Keeps (frame p.start)) (hnew : p.CheckIsNew s.suffix)
    (hdone : s.transition.walks = 0 → p.PathIsDone s.suffix) :
    ReadyFrom F.fork (fun s => base s.suffix) bound P Keeps (Forked.frame frame s) s := by
  obtain ⟨given, hgiven, hleads⟩ := h.keeps
  refine ⟨given, hgiven, ?_⟩
  by_cases hwalks : s.transition.walks = 0
  · obtain rfl := hp.done hgiven (hdone hwalks)
    exact ⟨_, .nil⟩
  · rw [Forked.frame, hp.new hnew]
    exact hleads hwalks

/-- A run does not diverge, and the suffix can follow the path that it leaves behind if the next run
follows the trace equally far. -/
theorem Forked.Rested.run (hp : p.Layered F S frame base bound Keeps)
    (h : s.Rested F base bound P Keeps (frame p.start)) (hnew : p.CheckIsNew s.suffix)
    (hdone : s.transition.walks = 0 → p.PathIsDone s.suffix)
    {r : Stop σ × Session (Forked p.State)}
    (hr : (P.opening (Forked.strategy p.strategy) s).Concludes (Forked.strategy p.strategy) P r) :
    r.2.divergence = none ∧
      ((Forked.strategy p.strategy).prepare r.2.strategy).2.Rested F base bound P Keeps
        (frame p.start) := by
  obtain ⟨hconsistent, given, hgiven, hleads⟩ := (h.ready hp hnew hdone).run (fork_over hp.stands)
    (fork_consistent hp.consistent) hp.backtracks hr
  have htransition : r.2.strategy.transition.beginRun = s.transition :=
    (hr.strategy_induction (Q := fun s' => s'.transition.beginRun = s.transition.beginRun)
      (fun r scene s' hs' => (Forked.beginRun_answer _ r scene s').trans hs')
      (by rw [Program.opening, (settle_framed _ P _ _).strategy]; rfl)).trans h.begins
  refine ⟨hconsistent, rfl, given, hgiven, fun _ => ?_⟩
  have hframe : ({ r.2.strategy.transition.countWalk with walks := 0 } : Transition) =
      { s.transition with walks := 0 } :=
    congrArg (fun t : Transition => { t with walks := 0 }) htransition
  rw [Forked.frame, hp.new hnew] at hleads
  show ∃ y, F.fork.Leads bound P (F.fork.root bound P
    ({ r.2.strategy.transition.countWalk with walks := 0 }, frame p.start)) given y
  rw [hframe]
  exact hleads

end Rested
end Suffix

section Bisection

variable {σ η : Type}

theorem plan_of_minimizationPlan {c : Configuration} {drawn : UInt64} {trace : Trace} {fair : Bool}
    {fairBound maxWalks : Nat} {suffix : Plan} (h : c.minimizationPlan drawn trace fair =
      .ok (.transition trace fair fairBound maxWalks suffix)) : c.plan drawn = .ok suffix := by
  unfold Configuration.minimizationPlan at h
  generalize c.validate = valid at h
  cases valid with
  | error fault => cases h
  | ok =>
    simp only [Except.bind] at h
    split at h
    · cases h
    · generalize c.plan drawn = selected at h
      cases selected <;> cases h
      rfl

/-- Under any configuration with a suffix, for any trace and between any bounds, a bisection ends in
a report, never in a divergence, if the suffix has nothing left to try whenever a run is the first
one at its length, and if its liveness check begins every run as it was made. -/
theorem minimization_reports {c : Configuration} {drawn : UInt64} {trace : Trace} {fair : Bool}
    {fairBound maxWalks : Nat} {suffix : Plan} (hplan : c.minimizationPlan drawn trace fair =
      .ok (.transition trace fair fairBound maxWalks suffix))
    {s : Forked suffix.State} (hs : s.suffix = suffix.start) (P : Program σ) (H : Host η)
    (host : η) (fuel : Nat)
    (hbegun : ∀ m, Minimization.Begins fuel (Forked.bisecting suffix.strategy) P H c s host m →
      suffix.CheckIsNew m.campaign.strategy.suffix ∧
        (m.campaign.strategy.transition.walks = 0 →
          suffix.PathIsDone m.campaign.strategy.suffix))
    {result : Except Fault MinimizationReport} {s' : Forked suffix.State} {host' : η}
    (hrun : Minimization.run fuel (Forked.bisecting suffix.strategy) P H c s host =
      some (result, s', host')) :
    ∃ report, result = .ok report := by
  rcases plan_fits (plan_of_minimizationPlan hplan) with
    hnever | ⟨φ, τ, F, S, frame, base, bound, Keeps, hlayered⟩
  · have hnever : (Forked.strategy suffix.strategy).NeverDiverges :=
      (fork_over (bare_over _)).neverDiverges (fork_consistent bare_consistent) hnever
    refine Minimization.report_of_keeps (I := fun _ => True) trivial
      (fun m _ _ r hr => ⟨?_, trivial, fun _ => trivial⟩) hrun
    exact consistent_of_neverDiverges hnever (drive_eq_some_iff.1 ⟨fuel, hr⟩)
      (settle_framed _ P _ _).divergence
  · refine Minimization.report_of_keeps
      (I := Forked.Rested F base bound P Keeps (frame suffix.start)) (.of_start hlayered hs)
      (fun m hm hrested r hr => ?_) hrun
    obtain ⟨hconsistent, hprepared⟩ := hrested.run hlayered (hbegun m hm).1 (hbegun m hm).2
      (drive_eq_some_iff.1 ⟨fuel, hr⟩)
    exact ⟨hconsistent, hprepared, hprepared.update⟩

end Bisection

/-- A unit fails the second time it runs. -/
def secondFails : Program Nat where
  fresh := 0
  start := .finish
  units n := [⟨⟨1⟩, .actor, decide (n < 2), none⟩]
  current _ := none
  execute _ n := .check (decide (n = 0)) "second run" fun _ => .finish (n + 1)
  hotMonitors _ := []
  label _ _ := "worker"

def recorded (units : List UnitId) : Trace := units.foldl (fun t u => t.push (.unit u)) .empty

/-- The bisection of a recorded schedule with a search for the suffix. -/
abbrev bisectionPlan (units : List UnitId) : Plan :=
  .transition (recorded units) true 100000 5 (.depthFirst 5)

/-- Every run shows the failure, down to the one that does not follow the trace at all. -/
theorem secondFails_reports :
    tenRuns.minimizationPlan 0 (recorded [⟨1⟩, ⟨1⟩]) true = .ok (bisectionPlan [⟨1⟩, ⟨1⟩]) ∧
    ∃ report s host, Minimization.run 9 (Forked.bisecting DepthFirst.strategy) secondFails quietHost
      tenRuns (bisectionPlan [⟨1⟩, ⟨1⟩]).start () = some (.ok report, s, host) := by
  have hplan : tenRuns.minimizationPlan 0 (recorded [⟨1⟩, ⟨1⟩]) true =
      .ok (bisectionPlan [⟨1⟩, ⟨1⟩]) := rfl
  let round := Minimization.round 9 (Forked.bisecting DepthFirst.strategy) secondFails quietHost
    tenRuns
  let first := Minimization.opened (Forked.bisecting DepthFirst.strategy)
    (bisectionPlan [⟨1⟩, ⟨1⟩]).start ()
  obtain ⟨second, hfirst, htest⟩ := exists_second
    (show ((round first).bind Sum.getLeft?).any (fun second =>
      second.campaign.strategy.suffix.ahead.isEmpty && (round second).any Sum.isRight) = true by
        decide +kernel)
  rw [Bool.and_eq_true, List.isEmpty_iff] at htest
  have hbegun : ∀ m, Minimization.Begins 9 (Forked.bisecting DepthFirst.strategy) secondFails
      quietHost tenRuns (bisectionPlan [⟨1⟩, ⟨1⟩]).start () m →
      (Plan.depthFirst 5).CheckIsNew m.campaign.strategy.suffix ∧
        (m.campaign.strategy.transition.walks = 0 →
          (Plan.depthFirst 5).PathIsDone m.campaign.strategy.suffix) := by
    rintro m ⟨hm, -⟩
    refine ⟨trivial, fun _ => ?_⟩
    rcases goesOn_of_two hm hfirst htest.2 with rfl | rfl
    · rfl
    · exact htest.1
  obtain ⟨⟨result, s, host⟩, hrun⟩ := Option.isSome_iff_exists.1
    (show (Minimization.run 9 (Forked.bisecting DepthFirst.strategy) secondFails quietHost tenRuns
      (bisectionPlan [⟨1⟩, ⟨1⟩]).start ()).isSome = true by decide +kernel)
  obtain ⟨report, rfl⟩ := minimization_reports hplan
    (rfl : (bisectionPlan [⟨1⟩, ⟨1⟩]).start.suffix = (Plan.depthFirst 5).start) secondFails
    quietHost () 9 hbegun hrun
  exact ⟨hplan, report, s, host, hrun⟩

/-- After the first unit has followed the trace, the suffix has two units to choose from. It expects
them again when two units are to follow the trace. -/
theorem other_prefix_diverges :
    tenRuns.minimizationPlan 0 (recorded [⟨1⟩, ⟨2⟩, ⟨3⟩]) true =
      .ok (bisectionPlan [⟨1⟩, ⟨2⟩, ⟨3⟩]) ∧
    ∃ s host, Minimization.run 9 (Forked.bisecting DepthFirst.strategy) (plainShots threeShots)
      quietHost tenRuns (bisectionPlan [⟨1⟩, ⟨2⟩, ⟨3⟩]).start () =
        some (.error (.diverged 0 .otherRequest), s, host) := by
  obtain ⟨⟨s, host⟩, hrun⟩ := eq_of_endsIn
    (show endsIn (.diverged 0 .otherRequest) (Minimization.run 9
      (Forked.bisecting DepthFirst.strategy) (plainShots threeShots) quietHost tenRuns
      (bisectionPlan [⟨1⟩, ⟨2⟩, ⟨3⟩]).start ()) = true by decide +kernel)
  exact ⟨rfl, s, host, hrun⟩

end Interleave
