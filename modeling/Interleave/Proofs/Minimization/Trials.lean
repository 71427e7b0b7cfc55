import Interleave.Proofs.Minimization
import Interleave.Proofs.Minimization.Halving
import Interleave.Proofs.Pause.Descent

/-!
# Interleave.Proofs.Minimization.Trials

What the result of a bisection with random walks says about the runs that were made. Whether a run
shows the bug is arbitrary: a length that always shows it may lie below one that does not.

* `Minimization.trials`: the runs of a bisection in order, each with its length and what it showed.
* `Bisection.Explored`: what the ends of the interval say about the trials so far.
* `explored_found`, `explored_missed`: halving the interval keeps this.
* `forked_run_ends`: each run comes to an end, by the limit on its steps.
* `searching_round`, `searching_search`: one more run, and all of them.
* `minimization_report_sound`: a bisection ends without a fault, and what its report means.
-/

namespace Interleave

/-- A run of a bisection: how far it was to follow the trace, and whether it showed a bug. -/
structure Trial where
  length : Nat
  found : Bool
deriving DecidableEq, Repr

/-- A run that panicked shows a bug. -/
def showsBug : Except String Outcome → Bool
  | .ok outcome => outcome.bug.isSome
  | .error _ => true

namespace Minimization

variable {σ τ η : Type}

/-- The next run, if it ends. -/
def trial? (fuel : Nat) (B : Bisecting τ) (P : Program σ) (m : Minimization τ η) : Option Trial :=
  (P.run fuel B.toStrategy m.campaign.strategy).map fun (result, _) =>
    ⟨(B.transition m.campaign.strategy).bisection.current, showsBug result⟩

/-- The runs of at most so many further rounds. -/
def trialsFrom (fuel : Nat) (B : Bisecting τ) (P : Program σ) (H : Host η) (c : Configuration) :
    Nat → Minimization τ η → List Trial
  | 0, _ => []
  | n + 1, m =>
    if (Budget.ofConfiguration c).stops H m.campaign.completed m.campaign.host then []
    else
      (trial? fuel B P m).toList ++
        match round fuel B P H c m with
        | some (.inl m') => trialsFrom fuel B P H c n m'
        | _ => []

/-- The runs of a bisection. -/
def trials (fuel : Nat) (B : Bisecting τ) (P : Program σ) (H : Host η) (c : Configuration)
    (strategy : τ) (host : η) : List Trial :=
  trialsFrom fuel B P H c fuel (opened B strategy host)

end Minimization

section Halving

/-- The trials at a length are as many as these, and each has shown a bug. -/
def FoundAlways (walks length : Nat) (ts : List Trial) : Prop :=
  ts.filter (fun t => decide (t.length = length)) = List.replicate walks ⟨length, true⟩

theorem filter_eq_nil_of_outside {left right length : Nat} {ts : List Trial}
    (h : ∀ t ∈ ts, t.length < left ∨ right ≤ t.length) (hleft : left ≤ length)
    (hright : length < right) : ts.filter (fun t => decide (t.length = length)) = [] := by
  rw [List.filter_eq_nil_iff]
  intro t ht
  have hout := h t ht
  rw [decide_eq_true_eq]
  omega

theorem FoundAlways.append {walks length : Nat} {ts ts' : List Trial}
    (h : FoundAlways walks length ts) (hts : ∀ t ∈ ts', t.length ≠ length) :
    FoundAlways walks length (ts ++ ts') := by
  rw [FoundAlways, List.filter_append, h, List.filter_eq_nil_iff.2 fun t ht => by simp [hts t ht],
    List.append_nil]

theorem not_foundAlways_nil {walks length : Nat} (h : 0 < walks) :
    ¬ FoundAlways walks length [] := by
  intro hfound
  rw [FoundAlways, List.filter_nil, eq_comm, List.replicate_eq_nil_iff] at hfound
  omega

/-- An interval of lengths after so many halvings of the lengths up to `n`. No trial lies in it; all
`walks` trials at its end have shown a bug, and one just before its start has not. -/
structure Bisection.Explored (n walks rounds : Nat) (ts : List Trial) (b : Bisection) : Prop where
  current_eq : b.current = middle b.left b.right
  le : b.left ≤ b.right
  right_le : b.right ≤ n
  shrinks : (b.right - b.left) * 2 ^ rounds ≤ n
  rounds_le : 0 < n → rounds ≤ Nat.log2 n + 1
  count_le : ts.length ≤ rounds * walks
  outside : ∀ t ∈ ts, t.length < b.left ∨ b.right ≤ t.length
  found : ∀ length, b.lastFound = some length → length = b.right ∧ FoundAlways walks length ts
  whole : b.lastFound = none → b.right = n
  missed : 0 < b.left → ⟨b.left - 1, false⟩ ∈ ts

theorem explored_new (n walks : Nat) : (Bisection.new n).Explored n walks 0 [] where
  current_eq := (Bisection.centred_new n).current_eq
  le := Nat.zero_le _
  right_le := Nat.le_refl _
  shrinks := by simp [Bisection.new]
  rounds_le _ := Nat.zero_le _
  count_le := Nat.zero_le _
  outside := nofun
  found := nofun
  whole _ := rfl
  missed h := absurd h (Nat.lt_irrefl 0)

/-- There are lengths left, or the trace is empty and nothing has been tried yet. -/
def Bisection.IsOpen (n : Nat) (b : Bisection) (ts : List Trial) : Prop :=
  b.left < b.right ∨ n = 0 ∧ ts = []

variable {n walks rounds : Nat} {ts : List Trial} {b : Bisection}

theorem Bisection.Explored.centred (h : b.Explored n walks rounds ts) : b.Centred :=
  ⟨h.current_eq, h.le⟩

/-- Where lengths are left there is room for another halving. -/
theorem Bisection.Explored.rounds_lt (h : b.Explored n walks rounds ts) (hopen : b.IsOpen n ts)
    (hn : 0 < n) : rounds + 1 ≤ Nat.log2 n + 1 := by
  obtain hlt | ⟨rfl, -⟩ := hopen
  · exact Nat.succ_le_succ (Bisection.le_log2_of_shrinks h.shrinks (Nat.sub_pos_of_lt hlt) hn)
  · exact absurd hn (Nat.lt_irrefl 0)

/-- Where lengths are left, none has been tried at the current one. -/
theorem Bisection.Explored.untried (h : b.Explored n walks rounds ts) (hopen : b.IsOpen n ts) :
    ts.filter (fun t => decide (t.length = b.current)) = [] := by
  obtain hlt | ⟨-, rfl⟩ := hopen
  · obtain ⟨hleft, -, -, hright⟩ := h.centred.bounds
    exact filter_eq_nil_of_outside h.outside hleft (hright hlt)
  · rfl

/-- What was found before does not depend on trials at the current length. -/
theorem Bisection.Explored.found_append (h : b.Explored n walks rounds ts)
    (hopen : b.IsOpen n ts) (hwalks : 0 < walks) {ts' : List Trial}
    (hts : ∀ t ∈ ts', t.length = b.current) (length : Nat) (hlast : b.lastFound = some length) :
    length = b.right ∧ FoundAlways walks length (ts ++ ts') := by
  obtain ⟨rfl, hfound⟩ := h.found length hlast
  refine ⟨rfl, ?_⟩
  obtain hlt | ⟨-, rfl⟩ := hopen
  · refine hfound.append fun t ht => ?_
    rw [hts t ht]
    exact ((h.centred.bounds).2.2.2 hlt).ne
  · exact absurd hfound (not_foundAlways_nil hwalks)

theorem explored_found (h : b.Explored n walks rounds ts) (hopen : b.IsOpen n ts) :
    (b.update true).2.Explored n walks (rounds + 1)
      (ts ++ List.replicate walks ⟨b.current, true⟩) := by
  obtain ⟨hleft, hright, -, -⟩ := h.centred.bounds
  constructor
  · rfl
  · exact hleft
  · exact Nat.le_trans hright h.right_le
  · exact Bisection.shrinks_of_half h.shrinks (h.centred.halves true)
  · exact h.rounds_lt hopen
  · rw [List.length_append, List.length_replicate, Nat.succ_mul]
    exact Nat.add_le_add_right h.count_le walks
  · intro t ht
    show t.length < b.left ∨ b.current ≤ t.length
    rcases List.mem_append.1 ht with hold | hnew
    · have hout := h.outside t hold
      omega
    · rw [List.eq_of_mem_replicate hnew]
      exact .inr (Nat.le_refl _)
  · rintro length ⟨⟩
    refine ⟨rfl, ?_⟩
    rw [FoundAlways, List.filter_append, h.untried hopen, List.nil_append]
    exact List.filter_eq_self.2 fun t ht => by simp [List.eq_of_mem_replicate ht]
  · nofun
  · exact fun hpos => List.mem_append_left _ (h.missed hpos)

theorem explored_missed (h : b.Explored n walks rounds ts) (hopen : b.IsOpen n ts) {walk : Nat}
    (hwalk : walk < walks) :
    (b.update false).2.Explored n walks (rounds + 1)
      (ts ++ (List.replicate walk ⟨b.current, true⟩ ++ [⟨b.current, false⟩])) := by
  obtain ⟨hleft, hright, -, hlt⟩ := h.centred.bounds
  have hnew : ∀ t ∈ List.replicate walk (⟨b.current, true⟩ : Trial) ++ [⟨b.current, false⟩],
      t.length = b.current := by
    intro t ht
    rcases List.mem_append.1 ht with ht | ht
    · rw [List.eq_of_mem_replicate ht]
    · rw [List.mem_singleton.1 ht]
  constructor
  · rfl
  · exact Nat.min_le_right _ _
  · exact h.right_le
  · exact Bisection.shrinks_of_half h.shrinks (h.centred.halves false)
  · exact h.rounds_lt hopen
  · have hcount := h.count_le
    simp only [List.length_append, List.length_replicate, List.length_singleton, Nat.succ_mul]
    omega
  · intro t ht
    show t.length < min (b.current + 1) b.right ∨ b.right ≤ t.length
    rcases List.mem_append.1 ht with ht | ht
    · have hout := h.outside t ht
      omega
    · rw [hnew t ht]
      omega
  · exact h.found_append hopen (by omega) hnew
  · exact h.whole
  · intro hpos
    have hpos : 0 < min (b.current + 1) b.right := hpos
    show (⟨min (b.current + 1) b.right - 1, false⟩ : Trial) ∈ _
    obtain hopen | ⟨rfl, -⟩ := hopen
    · have hnext : min (b.current + 1) b.right - 1 = b.current := by
        have := hlt hopen
        omega
      rw [hnext]
      exact List.mem_append_right _ (List.mem_append_right _ (List.mem_singleton.2 rfl))
    · have := h.right_le
      omega

end Halving

section Runs

variable {σ τ : Type} {S : Strategy τ} {Inv : τ → Prop} {P : Program σ} {s : Forked τ}

/-- How many units may still be scheduled. -/
def Forked.left (S : Strategy τ) (s : Forked τ) : Nat :=
  s.transition.stepLimit + 1 - Forked.steps S s

theorem Forked.left_answer (hS : S.Conforms Inv) (hs : Inv s.suffix) {r : Request} {scene : Scene}
    {v : r.Reply} (hv : ((Forked.strategy S).answer r scene s).result = .ok v) :
    ((Forked.strategy S).answer r scene s).state.left S = s.left S - 1 := by
  have hserved := (forked_conforms hS).served r scene s hs
  rw [hv] at hserved
  have hsteps : Forked.steps S _ = Forked.steps S s + 1 := hserved.after_eq
  have hlimit : (Forked.answer S r scene s).state.transition.stepLimit = s.transition.stepLimit :=
    (congrArg Transition.stepLimit (Forked.beginRun_answer S r scene s) :)
  unfold Forked.left
  rw [hsteps]
  show (Forked.answer S r scene s).state.transition.stepLimit + 1 - _ = _
  omega

/-- A unit is scheduled only while the steps keep to the limit, and every reply counts as one. -/
theorem forked_run_ends (hS : S.Conforms Inv) (hs : Inv s.suffix) :
    ∃ r, (P.opening (Forked.strategy S) s).Concludes (Forked.strategy S) P r := by
  have hdescends : Pause.Descends (Forked.strategy S) P
      (fun a => Inv a.session.strategy.suffix ∧ a.Open (Forked.strategy S).isFull P)
      (fun t _ => t.left S) := by
    constructor
    · rintro a b ⟨hinv, -⟩ hab
      obtain ⟨_, _, hstrategy, _, _, hopen⟩ := turn_eq_inl hab
      rw [hstrategy]
      exact ⟨(forked_conforms hS).answer _ _ _ hinv, hopen⟩
    · rintro a v ⟨hinv, -⟩ hv
      exact (Forked.left_answer hS hinv hv).trans_le (Nat.sub_le _ _)
    · rintro a p v ⟨hinv, hopen⟩ hplace hv
      have hbelow : decide (a.session.strategy.transition.stepLimit <
        Forked.steps S a.session.strategy) = false := (hopen.scheduling p hplace).2.1
      refine (Forked.left_answer hS hinv hv).trans_lt ?_
      rw [decide_eq_false_iff_not] at hbelow
      unfold Forked.left
      omega
  refine concludes_of_descends hdescends fun a ha => ?_
  obtain ⟨hstrategy, _, _, hopen⟩ := opening_eq_inl ha
  exact ⟨by rw [hstrategy]; exact hs, hopen⟩

theorem recordRun_found {report report' : Report} {attach fair found : Bool}
    {result : Except String Outcome}
    (h : report.recordRun attach fair result = .ok (found, report')) :
    found = showsBug result := by
  cases result with
  | error message => cases h; rfl
  | ok outcome =>
    unfold Report.recordRun Report.recordOutcome at h
    dsimp only at h
    split at h
    · cases h
    · split at h
      · rename_i hbug
        cases h
        simp [showsBug, hbug]
      · rename_i hbug
        cases h
        simp [showsBug, hbug]

/-- Random walks for the suffix. -/
abbrev walkers : Bisecting (Forked RandomWalk) := Forked.bisecting RandomWalk.strategy

theorem walkers_neverDiverge : walkers.NeverDiverges :=
  (fork_over (bare_over _)).neverDiverges (fork_consistent bare_consistent)
    randomWalk_neverDiverges

/-- What a run leaves behind: it never diverges, and the trace is the same. -/
theorem walk_leaves {s : Forked RandomWalk} {r : Stop σ × Session (Forked RandomWalk)}
    (h : (P.opening walkers.toStrategy s).Concludes walkers.toStrategy P r) :
    r.2.divergence = none ∧ r.2.strategy.transition.beginRun = s.transition.beginRun := by
  refine ⟨consistent_of_neverDiverges walkers_neverDiverge h (settle_framed _ P _ _).divergence,
    h.strategy_induction (Q := fun s' => s'.transition.beginRun = s.transition.beginRun)
      (fun r scene s' hs' => (Forked.beginRun_answer _ r scene s').trans hs') ?_⟩
  rw [Program.opening, (settle_framed _ P _ _).strategy]
  rfl

end Runs

section Meaning

/-- What a report says about the trials of a trace of `n` steps. -/
structure MinimizationReport.Sound (n walks : Nat) (ts : List Trial) (m : MinimizationReport) :
    Prop where
  best : ∀ length, m.best = some length → FoundAlways walks length ts
  reached : m.converged = true → m.best = some m.searchSteps ∨ m.best = none ∧ m.searchSteps = n
  missed : m.converged = true → 0 < m.searchSteps → ⟨m.searchSteps - 1, false⟩ ∈ ts
  rounds_le : 0 < n → m.rounds ≤ Nat.log2 n + 1
  count_le : m.converged = true → ts.length ≤ m.rounds * walks

variable {σ η : Type} {n walks fuel : Nat} {ts : List Trial} {P : Program σ} {H : Host η}
  {c : Configuration} {m : Minimization (Forked RandomWalk) η}

/-- A search between two runs: all runs at the current length have shown a bug, and another one is
due. -/
structure Minimization.Searching (n walks : Nat) (ts : List Trial)
    (m : Minimization (Forked RandomWalk) η) : Prop where
  log : ∃ earlier,
    m.campaign.strategy.transition.bisection.Explored n walks m.rounds earlier ∧
    m.campaign.strategy.transition.bisection.IsOpen n earlier ∧
    ts = earlier ++ List.replicate m.campaign.strategy.transition.walks
      ⟨m.campaign.strategy.transition.bisection.current, true⟩
  walks_lt : m.campaign.strategy.transition.walks < walks
  maxWalks : m.campaign.strategy.transition.maxWalks = walks
  rested : m.campaign.strategy.transition.beginRun = m.campaign.strategy.transition
  alwaysFound : m.alwaysFound = true

/-- What becomes of a search: it goes on, or it ends in a report that is right about the trials. -/
def Minimization.Fares (n walks : Nat) (ts : List Trial) :
    Minimization (Forked RandomWalk) η ⊕ (Except Fault MinimizationReport × Forked RandomWalk × η) →
      Prop
  | .inl m => m.Searching n walks ts
  | .inr (result, _, _) => ∃ report, result = .ok report ∧ report.Sound n walks ts

/-- A search that stops short has no trials yet at the length it reports. -/
theorem Minimization.Searching.sound (h : m.Searching n walks ts) (report : Report) :
    (Minimization.report walkers false report m.rounds m.campaign.strategy).Sound n walks ts := by
  obtain ⟨earlier, hexplored, hopen, rfl⟩ := h.log
  refine ⟨fun length hbest => ?_, nofun, nofun, hexplored.rounds_le, nofun⟩
  refine (hexplored.found_append hopen (Nat.zero_lt_of_lt h.walks_lt) (fun t ht => ?_) length
    hbest).2
  rw [List.eq_of_mem_replicate ht]

theorem Bisection.Explored.sound {b : Bisection} {rounds : Nat} (h : b.Explored n walks rounds ts)
    (hclosed : b.right ≤ b.left) (report : Report) :
    (MinimizationReport.mk report true b.lastFound b.current rounds).Sound n walks ts := by
  have hle := h.le
  have hcurrent : b.current = b.right ∧ b.current = b.left := by
    rw [h.current_eq, middle]
    omega
  constructor
  · exact fun length hbest => (h.found length hbest).2
  · intro _
    cases hlast : b.lastFound with
    | none => exact .inr ⟨rfl, hcurrent.1.trans (h.whole hlast)⟩
    | some length => exact .inl (by rw [(h.found length hlast).1, hcurrent.1])
  · intro _ hpos
    dsimp only at hpos ⊢
    rw [hcurrent.2] at hpos ⊢
    exact h.missed hpos
  · exact h.rounds_le
  · exact fun _ => h.count_le

/-- There is an end to the trials. -/
theorem Minimization.Searching.room (h : m.Searching n walks ts) :
    ts.length < (Nat.log2 n + 1) * walks := by
  obtain ⟨earlier, hexplored, hopen, rfl⟩ := h.log
  have hcount := hexplored.count_le
  have hwalks := h.walks_lt
  rw [List.length_append, List.length_replicate]
  rcases Nat.eq_zero_or_pos n with rfl | hn
  · obtain hlt | ⟨-, rfl⟩ := hopen
    · have := hexplored.right_le
      omega
    · simpa using hwalks
  · calc earlier.length + _ < m.rounds * walks + walks := by omega
      _ = (m.rounds + 1) * walks := (Nat.succ_mul _ _).symm
      _ ≤ (Nat.log2 n + 1) * walks := Nat.mul_le_mul_right _ (hexplored.rounds_lt hopen hn)

end Meaning

section Searches

variable {σ η : Type} {n walks fuel : Nat} {ts : List Trial} {P : Program σ} {H : Host η}
  {c : Configuration} {m : Minimization (Forked RandomWalk) η}
  {result : Except String Outcome} {s : Forked RandomWalk}

/-- The next round, where a run is made. -/
theorem round_of_run
    (hgo : (Budget.ofConfiguration c).stops H m.campaign.completed m.campaign.host = false)
    (hrested : m.campaign.strategy.transition.beginRun = m.campaign.strategy.transition)
    (halways : m.alwaysFound = true)
    (hrun : P.run fuel walkers.toStrategy m.campaign.strategy = some (result, s)) :
    let t := m.campaign.strategy.transition
    let next := t.bisection.update (showsBug result)
    ∃ report host suffix, Minimization.round fuel walkers P H c m = some
      (if decide (t.walks + 1 < t.maxWalks) && showsBug result then
        .inl ⟨⟨⟨{ t with walks := t.walks + 1 }, suffix⟩, host, report, m.campaign.completed + 1⟩,
          m.rounds, showsBug result⟩
      else if next.1 then
        .inl ⟨⟨⟨{ t with bisection := next.2, walks := 0 }, suffix⟩, host, report,
          m.campaign.completed + 1⟩, m.rounds + 1, true⟩
      else
        .inr (.ok ⟨report, true, next.2.lastFound, next.2.current, m.rounds + 1⟩,
          ⟨{ t with bisection := next.2, walks := 0 }, suffix⟩, host)) := by
  have honce : Campaign.runOnce fuel walkers.toStrategy P H m.campaign.strategy m.campaign.host =
      some (result, s, H.iterationTeardown (H.setup m.campaign.host)) := by
    rw [Campaign.runOnce, hrun]
    rfl
  obtain ⟨r, hr, rfl, hrecord⟩ := Campaign.run_eq_some hrun
  obtain ⟨hconsistent, htransition⟩ := walk_leaves (drive_eq_some_iff.1 ⟨fuel, hr⟩)
  obtain ⟨found, report, hreport⟩ := hrecord hconsistent m.campaign.report c.attachTraces
    (walkers.isFair r.2.strategy)
  obtain rfl := recordRun_found hreport
  refine ⟨report, H.iterationTeardown (H.setup m.campaign.host),
    (RandomWalk.strategy.prepare r.2.strategy.suffix).2, ?_⟩
  have hcount : r.2.strategy.transition.countWalk =
      { m.campaign.strategy.transition with
        walks := m.campaign.strategy.transition.walks + 1 } := by
    show ({ r.2.strategy.transition.beginRun with
      walks := r.2.strategy.transition.beginRun.walks + 1 } : Transition) = _
    rw [htransition, hrested]
  have hprepare : walkers.prepare r.2.strategy = (r.2.strategy.transition.countWalk.wantsWalk,
      ⟨r.2.strategy.transition.countWalk,
        (RandomWalk.strategy.prepare r.2.strategy.suffix).2⟩) := rfl
  rw [Minimization.round]
  simp only [hgo, Bool.false_eq_true, if_false, honce, Option.map_some, hreport, halways,
    Bool.true_and, hprepare, hcount]
  rfl

/-- A run is one more trial at the current length, and the search fares on. -/
theorem searching_round (hm : m.Searching n walks ts)
    (hgo : (Budget.ofConfiguration c).stops H m.campaign.completed m.campaign.host = false)
    (hrun : P.run fuel walkers.toStrategy m.campaign.strategy = some (result, s)) :
    ∃ x, Minimization.round fuel walkers P H c m = some x ∧ Minimization.Fares n walks
      (ts ++ [⟨m.campaign.strategy.transition.bisection.current, showsBug result⟩]) x := by
  obtain ⟨report, host, suffix, hround⟩ := round_of_run hgo hm.rested hm.alwaysFound hrun
  refine ⟨_, hround, ?_⟩
  obtain ⟨earlier, hexplored, hopen, rfl⟩ := hm.log
  have hwalks := hm.walks_lt
  have hmax := hm.maxWalks
  have hrested := hm.rested
  generalize m.campaign.strategy.transition = t at *
  -- another walk at this length is due, or this one settles the length
  by_cases hagain : t.walks + 1 < t.maxWalks ∧ showsBug result = true
  · rw [if_pos (by simpa using hagain)]
    obtain ⟨hmore, hfound⟩ := hagain
    refine ⟨⟨earlier, hexplored, hopen, ?_⟩, hmax ▸ hmore, hmax, ?_, hfound⟩
    · rw [hfound, List.append_assoc]
      exact congrArg (earlier ++ ·) List.replicate_succ'.symm
    · exact congrArg (fun u : Transition => { u with walks := t.walks + 1 }) hrested
  · rw [if_neg (by simpa using hagain)]
    have hnext : (t.bisection.update (showsBug result)).2.Explored n walks (m.rounds + 1)
        (earlier ++ List.replicate t.walks ⟨t.bisection.current, true⟩ ++
          [⟨t.bisection.current, showsBug result⟩]) := by
      cases hfound : showsBug result with
      | false =>
        rw [List.append_assoc]
        exact explored_missed hexplored hopen hwalks
      | true =>
        have hlast : walks = t.walks + 1 := by
          have hfull : ¬ t.walks + 1 < t.maxWalks := fun hmore => hagain ⟨hmore, hfound⟩
          omega
        rw [List.append_assoc, ← List.replicate_succ', ← hlast]
        exact explored_found hexplored hopen
    split
    · rename_i hmore
      refine ⟨⟨_, hnext, .inl (of_decide_eq_true hmore), (List.append_nil _).symm⟩,
        Nat.zero_lt_of_lt hwalks, hmax, ?_, rfl⟩
      exact congrArg (fun u : Transition =>
        { u with bisection := (t.bisection.update (showsBug result)).2, walks := 0 }) hrested
    · rename_i hclosed
      refine ⟨_, rfl, hnext.sound (Nat.le_of_not_lt fun hlt => hclosed ?_) report⟩
      exact decide_eq_true hlt

/-- By induction on the rounds. -/
theorem searching_search (k : Nat) (hm : m.Searching n walks ts)
    {x : Except Fault MinimizationReport × Forked RandomWalk × η}
    (h : iterate (Minimization.round fuel walkers P H c) k m = some x) :
    ∃ report, x.1 = .ok report ∧
      report.Sound n walks (ts ++ Minimization.trialsFrom fuel walkers P H c k m) := by
  induction k generalizing m ts with
  | zero => cases h
  | succ k ih =>
    rw [Minimization.trialsFrom]
    cases hstops : (Budget.ofConfiguration c).stops H m.campaign.completed m.campaign.host with
    | true =>
      have hround : Minimization.round fuel walkers P H c m = some (.inr (.ok (Minimization.report
          walkers false m.campaign.report m.rounds m.campaign.strategy), m.campaign.strategy,
          m.campaign.host)) := by
        rw [Minimization.round, hstops]
        rfl
      rw [iterate, hround] at h
      cases h
      rw [if_pos rfl, List.append_nil]
      exact ⟨_, rfl, hm.sound _⟩
    | false =>
      rw [if_neg Bool.false_ne_true]
      cases hrun : P.run fuel walkers.toStrategy m.campaign.strategy with
      | none =>
        have hround : Minimization.round fuel walkers P H c m = none := by
          rw [Minimization.round, Campaign.runOnce, hrun, hstops]
          rfl
        rw [iterate, hround] at h
        cases h
      | some run =>
        obtain ⟨result, s⟩ := run
        obtain ⟨y, hround, hfares⟩ := searching_round hm hstops hrun
        have htrial : Minimization.trial? fuel walkers P m =
            some ⟨m.campaign.strategy.transition.bisection.current, showsBug result⟩ := by
          rw [Minimization.trial?, hrun]
          rfl
        rw [iterate, hround] at h
        rw [htrial, hround, ← List.append_assoc]
        cases y with
        | inl m' => exact ih hfares h
        | inr x' =>
          cases h
          rw [List.append_nil]
          exact hfares

/-- By induction on the trials for which there is still room. -/
theorem searching_ends (hm : m.Searching n walks ts) : ∃ N, ∀ fuel k, N ≤ fuel → N ≤ k →
    (iterate (Minimization.round fuel walkers P H c) k m).isSome = true := by
  obtain ⟨room, hroom⟩ : ∃ room, ts.length + room = (Nat.log2 n + 1) * walks :=
    ⟨_, Nat.add_sub_of_le hm.room.le⟩
  induction room generalizing m ts with
  | zero => exact absurd hm.room (by omega)
  | succ room ih =>
    cases hstops : (Budget.ofConfiguration c).stops H m.campaign.completed m.campaign.host with
    | true =>
      refine ⟨1, fun fuel k _ hk => ?_⟩
      obtain ⟨k, rfl⟩ := Nat.exists_eq_add_of_le' hk
      rw [iterate, Minimization.round, hstops]
      rfl
    | false =>
      obtain ⟨F, ⟨result, s⟩, hrun⟩ := exists_run_iff.2 (forked_run_ends (P := P)
        (s := m.campaign.strategy) randomWalk_conforms trivial)
      have hrun : P.run F walkers.toStrategy m.campaign.strategy = some (result, s) := hrun
      obtain ⟨x, hround, hfares⟩ := searching_round (H := H) hm hstops hrun
      have hround : ∀ fuel, F ≤ fuel → Minimization.round fuel walkers P H c m = some x := by
        intro fuel hfuel
        rw [← hround, Minimization.round, Minimization.round, Campaign.runOnce, Campaign.runOnce,
          hrun, run_mono hfuel hrun]
      cases x with
      | inr x =>
        refine ⟨F + 1, fun fuel k hfuel hk => ?_⟩
        obtain ⟨k, rfl⟩ := Nat.exists_eq_add_of_le' (Nat.le_of_add_left_le hk)
        rw [iterate, hround fuel (Nat.le_of_succ_le hfuel)]
        rfl
      | inl m' =>
        obtain ⟨N, hN⟩ := ih hfares (by
          rw [List.length_append, List.length_singleton]
          omega)
        refine ⟨max F N + 1, fun fuel k hfuel hk => ?_⟩
        obtain ⟨k, rfl⟩ := Nat.exists_eq_add_of_le' (Nat.le_of_add_left_le hk)
        rw [iterate, hround fuel (by omega)]
        exact hN fuel k (by omega) (by omega)

theorem walks_of_minimizationPlan {c : Configuration} {drawn : UInt64} {trace : Trace} {fair : Bool}
    {fairBound maxWalks : Nat} {suffix : Plan} (h : c.minimizationPlan drawn trace fair =
      .ok (.transition trace fair fairBound maxWalks suffix)) :
    maxWalks = c.randomWalks.toNat ∧ 0 < c.randomWalks.toNat := by
  have hchecked : c.validate = .ok () → 0 < c.randomWalks.toNat := by
    intro hvalid
    refine Nat.pos_of_ne_zero fun hzero => ?_
    have hzero : c.randomWalks = 0 := UInt64.toNat_inj.1 hzero
    unfold Configuration.validate Configuration.check at hvalid
    rw [if_pos hzero] at hvalid
    repeat' split at hvalid
    all_goals cases hvalid
  unfold Configuration.minimizationPlan at h
  generalize c.validate = valid at h hchecked
  cases valid with
  | error fault => cases h
  | ok =>
    simp only [Except.bind] at h
    split at h
    · cases h
    · generalize c.plan drawn = selected at h
      cases selected <;> cases h
      exact ⟨rfl, hchecked rfl⟩

/-- The minimization of a trace with random walks, under any configuration and for any program,
comes to an end and never to a fault, and its report is right about the trials that were made. -/
theorem minimization_report_sound {c : Configuration} {drawn seed : UInt64} {trace : Trace}
    {fair : Bool} {fairBound maxWalks bound : Nat}
    (hplan : c.minimizationPlan drawn trace fair =
      .ok (.transition trace fair fairBound maxWalks (.random seed bound)))
    (P : Program σ) (H : Host η) (host : η) :
    let start : Forked RandomWalk :=
      (Plan.transition trace fair fairBound maxWalks (.random seed bound)).start
    (∃ N, ∀ fuel, N ≤ fuel → (Minimization.run fuel walkers P H c start host).isSome = true) ∧
    ∀ fuel result s host', Minimization.run fuel walkers P H c start host =
      some (result, s, host') → ∃ report, result = .ok report ∧
        report.Sound trace.length c.randomWalks.toNat
          (Minimization.trials fuel walkers P H c start host) := by
  intro start
  obtain ⟨hmax, hpos⟩ := walks_of_minimizationPlan hplan
  have hopened : (Minimization.opened walkers start host).Searching trace.length
      c.randomWalks.toNat [] := by
    refine ⟨⟨[], ?_, ?_, rfl⟩, hpos, ?_, rfl, rfl⟩
    · exact explored_new _ _
    · rcases Nat.eq_zero_or_pos trace.length with hzero | hpos
      · exact .inr ⟨hzero, rfl⟩
      · exact .inl hpos
    · show max maxWalks 1 = _
      omega
  constructor
  · obtain ⟨N, hN⟩ := searching_ends (P := P) (H := H) (c := c) hopened
    refine ⟨N, fun fuel hfuel => ?_⟩
    rw [Minimization.run, Option.isSome_map]
    exact hN fuel fuel hfuel hfuel
  · intro fuel result s host' hrun
    obtain ⟨x, hx, heq⟩ := Option.map_eq_some_iff.1 hrun
    cases heq
    exact searching_search fuel hopened hx

end Searches

/-- One of two units is scheduled, and it must not be the second one. -/
def wrongTurn : Program Bool where
  fresh := false
  start := .finish
  units done := [⟨⟨1⟩, .actor, !done, none⟩, ⟨⟨2⟩, .actor, !done, none⟩]
  current _ := none
  execute u _ := .check (decide (u = ⟨1⟩)) "not its turn" fun _ => .finish true
  hotMonitors _ := []
  label _ _ := "worker"

/-- Three random walks for each length. -/
def threeWalks : Configuration := { randomWalks := 3, seed := some 7, iterations := 20 }

abbrev threeWalksPlan : Plan :=
  .transition (recorded [⟨2⟩, ⟨1⟩]) true 100000 3 (.random 7 100000)

/-- What a bisection converged to, where a bug was found. -/
def convergedBest? {β : Type} : Option (Except Fault MinimizationReport × β) → Option Nat
  | some (.ok report, _) => if report.converged then report.best else none
  | _ => none

theorem exists_of_convergedBest? {α β : Type} {length : Nat}
    {x : Option (Except Fault MinimizationReport × α × β)} (h : convergedBest? x = some length) :
    ∃ report s host, x = some (.ok report, s, host) ∧ report.converged = true ∧
      report.best = some length := by
  unfold convergedBest? at h
  split at h
  · split at h
    · rename_i hconverged
      exact ⟨_, _, _, rfl, hconverged, h⟩
    · cases h
  · cases h

/-- Three walks behind the first step of the trace show the failure. Without it one of them misses
it. -/
theorem minimization_report_sound_wrongTurn :
    threeWalks.minimizationPlan 0 (recorded [⟨2⟩, ⟨1⟩]) true = .ok threeWalksPlan ∧
    ∃ report s host, Minimization.run 20 walkers wrongTurn quietHost threeWalks
      threeWalksPlan.start () = some (.ok report, s, host) ∧ report.converged = true ∧
      report.searchSteps = 1 ∧
      FoundAlways 3 1 (Minimization.trials 20 walkers wrongTurn quietHost threeWalks
        threeWalksPlan.start ()) ∧
      ⟨0, false⟩ ∈ Minimization.trials 20 walkers wrongTurn quietHost threeWalks
        threeWalksPlan.start () := by
  have hplan : threeWalks.minimizationPlan 0 (recorded [⟨2⟩, ⟨1⟩]) true = .ok threeWalksPlan := rfl
  obtain ⟨report, s, host, hrun, hconverged, hbest⟩ := exists_of_convergedBest?
    (show convergedBest? (Minimization.run 20 walkers wrongTurn quietHost threeWalks
      threeWalksPlan.start ()) = some 1 by decide +kernel)
  obtain ⟨_, hreport, hsound⟩ :=
    (minimization_report_sound hplan wrongTurn quietHost ()).2 _ _ _ _ hrun
  cases hreport
  have hsteps : report.searchSteps = 1 := by
    rcases hsound.reached hconverged with hsome | ⟨hnone, -⟩
    · exact Option.some.inj (hsome.symm.trans hbest)
    · cases hnone.symm.trans hbest
  have hmissed := hsound.missed hconverged (by omega)
  rw [hsteps] at hmissed
  exact ⟨hplan, report, s, host, hrun, hconverged, hsteps, hsound.best 1 hbest, hmissed⟩

end Interleave
