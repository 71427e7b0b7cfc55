import Mathlib.Data.Prod.Lex
import Mathlib.Order.WithBot
import Interleave.Proofs.Liveness.Heating
import Interleave.Proofs.Liveness.Lasso
import Interleave.Proofs.Liveness.Retracing
import Interleave.Proofs.Pause.Descent

/-!
# Interleave.Proofs.Liveness.Ending

When runs under the liveness check end. The bound of the strategy below is looked at where a unit is
scheduled, but not while a cycle is repeated, and a cycle that is given up leaves the request to the
strategy below, at its bound or not.

* `Strategy.Capped`: a strategy is at its bound from so many steps on.
* `Pause.BeginsLate`: a cycle begins to be repeated when the strategy below is at its bound.
* `watched_run_ends_iff`: a run ends exactly if from some request on none begins late.
* `pendulum_never_ends`: a run that never ends, because every other request begins late.
-/

namespace Interleave

section Bounds

/-- A strategy that is at its bound from so many steps on, in all states that an invariant holds of,
and makes proper answers there. -/
structure Strategy.Capped {τ : Type} (S : Strategy τ) (Inv : τ → Prop) (bound : Nat) : Prop where
  conforms : S.Conforms Inv
  full_iff : ∀ s, Inv s → (S.atBound s = true ↔ bound ≤ S.steps s)

/-- A search or a random walk with a bound. -/
def Plan.IsBounded : Plan → Prop
  | .random _ bound => bound ≠ 0
  | .depthFirst bound => bound ≠ 0
  | .partialOrder bound => bound ≠ 0
  | _ => False

theorem boundReached_iff {bound steps : Nat} (h : bound ≠ 0) :
    boundReached bound steps = true ↔ bound ≤ steps := by
  simp [boundReached, h]

theorem Strategy.Conforms.and {τ : Type} {S : Strategy τ} {Inv K : τ → Prop} (h : S.Conforms Inv)
    (hanswer : ∀ r scene s, Inv s → K s → K (S.answer r scene s).state)
    (hprepare : ∀ s, Inv s → K s → K (S.prepare s).2)
    (hreset : ∀ s, Inv s → K s → K (S.reset s)) : S.Conforms fun s => Inv s ∧ K s where
  answer r scene s hs := ⟨h.answer r scene s hs.1, hanswer r scene s hs.1 hs.2⟩
  prepare s hs := ⟨h.prepare s hs.1, hprepare s hs.1 hs.2⟩
  reset s hs := ⟨h.reset s hs.1, hreset s hs.1 hs.2⟩
  served r scene s hs := h.served r scene s hs.1
  observed := h.observed

theorem RandomWalk.bound_reply (r : Request) (s : RandomWalk) : (s.reply r).2.bound = s.bound := by
  cases r with
  | unit candidates current => simp only [reply]; split <;> rfl
  | boolean max => rfl
  | integer max => rfl

theorem DepthFirst.bound_visit (alternatives : Alternatives) (s : DepthFirst) :
    (s.visit alternatives).2.bound = s.bound := by
  unfold visit
  repeat' split
  all_goals rfl

theorem DepthFirst.bound_reply (r : Request) (s : DepthFirst) : (s.reply r).2.bound = s.bound := by
  cases r with
  | unit candidates current =>
    simp only [reply]
    split
    · rfl
    · exact bound_visit _ s
  | boolean max => exact bound_visit _ s
  | integer max => exact bound_visit _ s

theorem PartialOrder.bound_trackAll {s : PartialOrder} (hs : s.tracked.length ≤ maxSlots)
    (found : SlotSet) (units : List UnitId) : (s.trackAll found units).2.bound = s.bound := by
  rw [(trackAll_spec units s found hs).1.rest]

theorem PartialOrder.bound_visitValue (count : UInt64) (s : PartialOrder) :
    (s.visitValue count).2.bound = s.bound := by
  unfold visitValue
  repeat' split
  all_goals rfl

theorem PartialOrder.bound_reply {s : PartialOrder} (hs : s.tracked.length ≤ maxSlots)
    (r : Request) : (s.reply r).2.bound = s.bound := by
  cases r with
  | unit candidates current =>
    have htracked := bound_trackAll hs .empty (enabledIds candidates)
    simp only [reply, visitUnit]
    split
    · rename_i t hall
      rw [hall] at htracked
      exact htracked
    · rename_i enabled t hall
      rw [hall] at htracked
      repeat' split
      all_goals exact htracked
  | boolean max => exact bound_visitValue 2 s
  | integer max => exact bound_visitValue _ s

theorem Plan.IsBounded.capped {p : Plan} (hp : p.IsBounded) :
    ∃ Inv bound, p.strategy.Capped Inv bound ∧ Inv p.start := by
  cases p with
  | random seed bound =>
    refine ⟨_, bound, ⟨randomWalk_conforms.and (K := fun s => s.bound = bound)
      (fun r _ s _ hs => (s.bound_reply r).trans hs) (fun _ _ => id) (fun _ _ => id), ?_⟩,
      trivial, rfl⟩
    rintro s ⟨-, hs⟩
    rw [← hs] at hp ⊢
    exact boundReached_iff hp
  | depthFirst bound =>
    refine ⟨_, bound, ⟨depthFirst_conforms.and (K := fun s => s.bound = bound)
      (fun r _ s _ hs => (s.bound_reply r).trans hs) (fun _ _ => id) (fun _ _ => id), ?_⟩,
      trivial, rfl⟩
    rintro s ⟨-, hs⟩
    rw [← hs] at hp ⊢
    exact boundReached_iff hp
  | partialOrder bound =>
    refine ⟨_, bound, ⟨partialOrder_conforms.and (K := fun s => s.bound = bound)
      (fun r _ s hsound hs => (PartialOrder.bound_reply hsound.1 r).trans hs) (fun _ _ => id)
      (fun _ _ => id), ?_⟩, PartialOrder.sound_new bound, rfl⟩
    rintro s ⟨-, hs⟩
    rw [← hs] at hp ⊢
    exact boundReached_iff hp
  | replay => exact hp.elim
  | watch => exact hp.elim
  | scripted => exact hp.elim
  | transition => exact hp.elim
  | wholeTrace => exact hp.elim

end Bounds

section Measure

variable {σ τ : Type} {S : Strategy τ} {Inv : τ → Prop} {P : Program σ} {bound : Nat}

/-- How often a cycle may still give the reply, unless it is given up before. -/
def Watched.rest (S : Strategy τ) (c : Chase) (s : Watched τ) (length : Nat) : Nat :=
  (c.threshold - c.temperature) +
    (s.detector.safetyPrefix - (S.steps s.base + s.detector.replayed)) + (1 - length)

/-- What is left of a run after so many choices: the steps up to the bound, and before each of them
the replies of a cycle. Past the bound no further cycle is reckoned with. -/
def Watched.left (S : Strategy τ) (bound : Nat) (s : Watched τ) (length : Nat) :
    ℕ ×ₗ WithTop ℕ :=
  toLex (bound - S.steps s.base,
    match s.detector.chase with
    | some c => .some (s.rest S c length + 1)
    | none => if S.steps s.base < bound then ⊤ else .some 0)

/-- A cycle begins to be repeated when the strategy below is at its bound. -/
def Pause.BeginsLate (S : Strategy τ) (P : Program σ) (a : Pause σ (Watched τ)) : Prop :=
  a.session.strategy.detector.chase = none ∧ S.atBound a.session.strategy.base = true ∧
    (a.answer (Watched.strategy S) P).state.detector.chase ≠ none

theorem left_lt_of_fewer {s t : Watched τ} {m n : Nat} (hsteps : S.steps s.base < S.steps t.base)
    (hbelow : S.steps s.base < bound) : t.left S bound m < s.left S bound n :=
  Prod.Lex.toLex_lt_toLex.2 (.inl (by omega))

/-- A cycle that goes on has less left. -/
theorem left_lt_of_followed {s t : Watched τ} {c c' : Chase} {n : Nat} (hbase : t.base = s.base)
    (hreplayed : t.detector.replayed = s.detector.replayed + 1)
    (hsafety : t.detector.safetyPrefix = s.detector.safetyPrefix)
    (hs : s.detector.chase = some c) (ht : t.detector.chase = some c')
    (hthreshold : c'.threshold = c.threshold)
    (hpasses : (c'.temperature = c.temperature ∧ (n = 0 ∨
        S.steps s.base + s.detector.replayed < s.detector.safetyPrefix)) ∨
      (c'.temperature = c.temperature + 1 ∧ c'.temperature < c'.threshold)) :
    t.left S bound (n + 1) < s.left S bound n := by
  unfold Watched.left
  rw [hs, ht, hbase]
  refine Prod.Lex.toLex_lt_toLex.2 (.inr ⟨rfl, WithTop.coe_lt_coe.2 ?_⟩)
  unfold Watched.rest
  rw [hbase, hreplayed, hsafety, hthreshold]
  omega

/-- A reply leaves less than there was, unless the strategy below gives it at its bound while no
cycle is repeated. -/
theorem left_lt_or_full (hS : S.Capped Inv bound) {a : Pause σ (Watched τ)}
    (hbase : Inv a.session.strategy.base) (hlate : ¬ a.BeginsLate S P)
    {v : (a.place.request P).Reply} (hv : (a.answer (Watched.strategy S) P).result = .ok v) :
    (a.answer (Watched.strategy S) P).state.left S bound (a.session.trace.length + 1) <
        a.session.strategy.left S bound a.session.trace.length ∨
      ((a.answer (Watched.strategy S) P).state.left S bound (a.session.trace.length + 1) =
          a.session.strategy.left S bound a.session.trace.length ∧
        a.session.strategy.detector.chase = none ∧ S.atBound a.session.strategy.base = true) := by
  have hkept := finding_kept (S := S) a.session.scene a.session.strategy
  have hanswer := answer_cases (S := S) (P := P) a
  unfold Pause.BeginsLate at hlate
  generalize a.answer (Watched.strategy S) P = answer at hanswer hv hlate ⊢
  cases hanswer with
  | confirmed => cases hv
  | @followed d observer c step value hfinding hchase hstep haccept =>
    left
    rw [hfinding] at hkept
    have hreplayed : d.replayed + 1 = a.session.strategy.detector.replayed + 1 := by
      rw [hkept.replayed]
    rcases warms_of_chase hfinding hchase with ⟨hold, hearly⟩ | ⟨_, hbelow, hwarms⟩
    · exact left_lt_of_followed rfl hreplayed hkept.safetyPrefix hold rfl rfl (.inl ⟨rfl, hearly⟩)
    · cases hwarms with
      | warmer hold hthreshold htemperature =>
        exact left_lt_of_followed rfl hreplayed hkept.safetyPrefix hold rfl hthreshold
          (.inr ⟨htemperature, hbelow⟩)
      | begun hnone =>
        -- the strategy below is not at its bound, so that nothing was reckoned with before it
        have hopen : S.steps a.session.strategy.base < bound := by
          by_contra hfull
          exact hlate ⟨hnone, (hS.full_iff _ hbase).2 (by omega), by simp⟩
        unfold Watched.left
        rw [hnone, if_pos hopen]
        exact Prod.Lex.toLex_lt_toLex.2 (.inr ⟨rfl, WithTop.coe_lt_top _⟩)
  | @forwarded d observer hfinding hunfit =>
    have hserved := hS.conforms.served (a.place.request P) { a.session.scene with observer }
      a.session.strategy.base hbase
    have hmore : S.steps (S.answer (a.place.request P) { a.session.scene with observer }
        a.session.strategy.base).state = S.steps a.session.strategy.base + 1 := by
      rw [hv] at hserved
      exact hserved.after_eq
    rcases Nat.lt_or_ge (S.steps a.session.strategy.base) bound with hbelow | hfull
    · exact .inl (left_lt_of_fewer (by rw [hmore]; omega) hbelow)
    · unfold Watched.left
      dsimp only
      rw [hmore, if_neg (by omega)]
      cases hchase : a.session.strategy.detector.chase with
      | none =>
        right
        refine ⟨?_, rfl, (hS.full_iff _ hbase).2 hfull⟩
        dsimp only
        rw [if_neg (by omega), show bound - (S.steps a.session.strategy.base + 1) =
          bound - S.steps a.session.strategy.base by omega]
      | some c =>
        left
        refine Prod.Lex.toLex_lt_toLex.2 (.inr ⟨by dsimp only; omega, ?_⟩)
        exact WithTop.coe_lt_coe.2 (Nat.succ_pos _)

end Measure

section Runs

variable {σ : Type} {P : Program σ}

/-- The steps below and the replies of a cycle are used up one after the other, where no cycle
begins to be repeated at the bound. -/
theorem descends_of_notLate {τ : Type} {S : Strategy τ} {Inv : τ → Prop} {bound : Nat}
    (hS : S.Capped Inv bound) {start : Watched τ} (hstart : Inv start.base) {n : Nat}
    (hlate : ∀ m a, n ≤ m → P.pauseAt (Watched.strategy S) start m = some a →
      ¬ a.BeginsLate S P) :
    Pause.Descends (Watched.strategy S) P
      (fun a => ∃ m, n ≤ m ∧ P.pauseAt (Watched.strategy S) start m = some a)
      (Watched.left S bound) := by
  have hbase : ∀ m a, P.pauseAt (Watched.strategy S) start m = some a →
      Inv a.session.strategy.base := by
    refine pauseAt_induction (fun a ha => ?_) fun a b ha hab => ?_
    · rw [(opening_eq_inl ha).1]
      exact hstart
    · obtain ⟨_, _, hstrategy, _⟩ := turn_eq_inl hab
      rw [hstrategy]
      exact (watched_conforms hS.conforms).answer _ _ _ ha
  constructor
  · rintro a b ⟨m, hm, ha⟩ hab
    exact ⟨m + 1, by omega, pauseAt_succ ha hab⟩
  · rintro a v ⟨m, hm, ha⟩ hv
    rcases left_lt_or_full hS (hbase m a ha) (hlate m a hm ha) hv with hlt | ⟨heq, _⟩
    · exact hlt.le
    · exact heq.le
  · rintro a p v ⟨m, hm, ha⟩ hplace hv
    rcases left_lt_or_full hS (hbase m a ha) (hlate m a hm ha) hv with hlt | ⟨_, hnone, hfull⟩
    · exact hlt
    · -- no unit is asked for at the bound while no cycle is repeated
      have hopen : (a.session.strategy.detector.chase.isNone &&
          S.atBound a.session.strategy.base) = false :=
        ((pauseAt_open ha).scheduling p hplace).2.1
      rw [hnone, hfull] at hopen
      cases hopen

/-- A run under the liveness check ends exactly if only finitely many of its requests begin to
repeat a cycle with the strategy below at its bound. -/
theorem watched_run_ends_iff {p : Plan} (hp : p.IsBounded) {config : Configuration}
    {drawn : UInt64} {start : (config.watching drawn p).State}
    (hstart : (config.watching drawn p).strategy.Reaches (config.watching drawn p).start start) :
    (∃ fuel result, P.run fuel (config.watching drawn p).strategy start = some result) ↔
      ∃ n, ∀ m a, n ≤ m → P.pauseAt (config.watching drawn p).strategy start m = some a →
        ¬ a.BeginsLate p.strategy P := by
  obtain ⟨Inv, bound, hS, hfresh⟩ := hp.capped
  have hbase : Inv start.base := (watched_conforms hS.conforms).of_reaches hfresh hstart
  rw [exists_run_iff, concludes_opening_iff]
  constructor
  · rintro ⟨n, hn⟩
    refine ⟨n, fun m a hm ha => ?_⟩
    obtain ⟨b, hb⟩ := pauseAt_of_le hm ha
    rw [hn] at hb
    cases hb
  · rintro ⟨n, hlate⟩
    cases ha : P.pauseAt (config.watching drawn p).strategy start n with
    | none => exact ⟨n, ha⟩
    | some a =>
      obtain ⟨r, hr⟩ := concludes_of_descends (descends_of_notLate hS hbase hlate)
        (x := .inl a) (fun b hb => by cases hb; exact ⟨n, Nat.le_refl n, ha⟩)
      exact concludes_opening_iff.1 ⟨r, concludes_of_pauseAt n ha hr⟩

theorem watched_run_ends_idleWorker :
    ∃ fuel result, idleWorker.run fuel hotTwicePlan.strategy hotTwicePlan.start = some result := by
  refine (watched_run_ends_iff (p := .depthFirst 5) (show 5 ≠ 0 by decide) .start).2
    ⟨4, fun m a hm ha => ?_⟩
  have hended : idleWorker.pauseAt hotTwicePlan.strategy hotTwicePlan.start 4 = none := by
    have hnone : (idleWorker.pauseAt hotTwicePlan.strategy hotTwicePlan.start 4).isNone = true := by
      decide +kernel
    exact Option.isNone_iff_eq_none.1 hnone
  obtain ⟨b, hb⟩ := pauseAt_of_le hm ha
  rw [hended] at hb
  cases hb

end Runs

section Pendulum

/-- One of two hashes by turns. -/
def pendulumMark (k : Nat) : UInt64 := UInt64.ofNat (k % 2 + 1)

/-- The rest of a round of `pendulum`, whatever the boolean is. -/
def pendulumSwing (k : Nat) : Option Bool → Handler Nat := fun _ =>
  .tell (.localHash ⟨1⟩ (pendulumMark k)) (.finish (k + 1))

/-- A monitor waits for ever, and one unit runs for ever. Before its question the unit is always in
the same state, after it in one of two by turns. -/
def pendulum : Program Nat where
  fresh := 0
  start _ := .tell (.monitor "progress" "Waiting" .hot)
    (.tell (.localHash ⟨1⟩ (pendulumMark 1)) (.finish 0))
  units _ := [.actor ⟨1⟩]
  current _ := none
  execute _ k := .tell (.localHash ⟨1⟩ 0) (.ask (.boolean 2) (pendulumSwing k))
  hotMonitors _ := []
  label _ _ := "worker"

/-- A search with a bound of three steps. -/
def threeSteps : Configuration :=
  { strategy := .depthFirst, unfairStepBound := 3, detectCycles := true }

abbrev threeStepsPlan : Plan := threeSteps.watching 0 (.depthFirst 3)

namespace Pendulum

theorem note_localHash_again {digest : Element → UInt64} {o : Observed} (ho : o.Tallied digest)
    (hm : o.machines = ∅) (h h' : UInt64) :
    (o.note digest (.localHash ⟨1⟩ h)).note digest (.localHash ⟨1⟩ h') =
      o.note digest (.localHash ⟨1⟩ h') := by
  obtain ⟨machines, monitors, machineSum, monitorSum⟩ := o
  cases hm
  exact Observed.eq_of_told (Observed.tallied_note (Observed.tallied_note ho _) _)
    (Observed.tallied_note ho _) rfl rfl

/-- What has been told when the unit has told this hash last. -/
def told (h : UInt64) : Observed :=
  (Observed.empty.note Element.digest (.monitor "progress" "Waiting" .hot)).note Element.digest
    (.localHash ⟨1⟩ h)

theorem note_told (h h' : UInt64) :
    (told h).note Element.digest (.localHash ⟨1⟩ h') = told h' :=
  note_localHash_again (Observed.tallied_note Observed.tallied_empty _) rfl h h'

theorem heatOf_told (h : UInt64) : (told h).heatOf "progress" = .hot := by
  have hsame : ∀ o : Observed,
      (o.note Element.digest (.localHash ⟨1⟩ h)).heatOf "progress" = o.heatOf "progress" :=
    fun _ => rfl
  rw [told, hsame]
  decide +kernel

/-- The photograph taken then. -/
def view (h : UInt64) : Snapshot := (Observer.mk (told h) .empty).look Element.digest [.actor ⟨1⟩]

theorem heatOf_view (h : UInt64) (name : String) : (view h).heatOf name = (told h).heatOf name :=
  heatOf_look ⟨told h, .empty⟩ [.actor ⟨1⟩] name

theorem mark_add_two (k : Nat) : pendulumMark (k + 2) = pendulumMark k := by
  simp [pendulumMark]

/-- The three states are told apart by their fingerprints. -/
theorem fingerprint_ne (k : Nat) :
    (view (pendulumMark k)).fingerprint ≠ (view 0).fingerprint ∧
      (view (pendulumMark (k + 1))).fingerprint ≠ (view (pendulumMark k)).fingerprint := by
  have hdistinct : (view 1).fingerprint ≠ (view 0).fingerprint ∧
      (view 2).fingerprint ≠ (view 0).fingerprint ∧
      (view 1).fingerprint ≠ (view 2).fingerprint := by decide +kernel
  obtain ⟨hone, htwo, hother⟩ := hdistinct
  unfold pendulumMark
  rcases Nat.mod_two_eq_zero_or_one k with heven | hodd
  · rw [heven, show (k + 1) % 2 = 1 by omega]
    exact ⟨hone, hother.symm⟩
  · rw [hodd, show (k + 1) % 2 = 0 by omega]
    exact ⟨htwo, hother⟩

/-- The cycle of a round: the boolean and the next time the unit is scheduled. -/
def lap (h : UInt64) (n : Nat) : Cycle :=
  [⟨n, .boolean false, view h⟩, ⟨n + 1, .unit ⟨1⟩, view 0⟩]

theorem start_lap (h : UInt64) (n : Nat) : (lap h n).start = n := by
  simp [Cycle.start, lap, List.min?]

theorem visits_lap {h : UInt64} {n : Nat} {fingerprint : UInt64} :
    (lap h n).visits fingerprint = true ↔
      (view h).fingerprint = fingerprint ∨ (view 0).fingerprint = fingerprint := by
  simp [Cycle.visits, lap]

theorem isFair_lap (h : UInt64) (n : Nat) : (lap h n).isFair = true := by
  have hsame : (lap h n).isFair = (lap 0 0).isFair := rfl
  rw [hsame]
  decide +kernel

theorem mem_hotMonitors_lap {h : UInt64} {n : Nat} {name : String} :
    name ∈ (lap h n).hotMonitors ↔
      ((told h).heatOf name).isHot = true ∧ ((told 0).heatOf name).isHot = true := by
  rw [Cycle.mem_hotMonitors_iff (by simp [lap])]
  simp [lap, heatOf_view]

theorem hotMonitors_lap_ne (h : UInt64) (n : Nat) : (lap h n).hotMonitors ≠ [] :=
  List.ne_nil_of_mem (a := "progress")
    (mem_hotMonitors_lap.2 (by simp [heatOf_told, Heat.isHot]))

/-- The chase of a lap once its end has been compared. -/
def begun (h : UInt64) (n : Nat) : Chase :=
  { Chase.begin 0 (lap h n) (lap h n).hotMonitors with temperature := 1, unchecked := n + 2 }

/-- No monitor of the cycle is cold, and the only state to compare is that of its end. -/
theorem advance?_lap {h : UInt64} {n : Nat} {o : Observer}
    (hlast : o.snapshotAt? (n + 1) = some (view 0)) (hheat : o.observed = told 0) :
    (Chase.begin 0 (lap h n) (lap h n).hotMonitors).advance? o (n + 1) = some (begun h n) := by
  have hwarm : ¬ ((Chase.begin 0 (lap h n) (lap h n).hotMonitors).hot.any fun name =>
      (o.heatOf name).isCold) = true := by
    rw [List.any_eq_true]
    rintro ⟨name, hname, hcold⟩
    rw [Observer.heatOf, hheat, Heat.isCold_of_isHot (mem_hotMonitors_lap.1 hname).2] at hcold
    cases hcold
  have hstays : ¬ (Chase.begin 0 (lap h n) (lap h n).hotMonitors).leaves o (n + 1) = true := by
    rw [Chase.leaves, Chase.begin, start_lap, show n + 1 + 1 - (n + 1) = 1 by omega]
    simp [List.range', hlast, visits_lap]
  rw [Chase.advance?, if_neg hwarm, if_neg hstays]
  simp [begun, Chase.begin, start_lap]

/-- In the other state the chase is given up. -/
theorem advance?_begun {h : UInt64} {n : Nat} {o : Observer} {state : Snapshot}
    (hlast : o.snapshotAt? (n + 2) = some state) (hother : state.fingerprint ≠ (view h).fingerprint)
    (hzero : state.fingerprint ≠ (view 0).fingerprint) :
    (begun h n).step.advance? o (n + 2) = none := by
  have hleaves : (begun h n).step.leaves o (n + 2) = true := by
    have hvisits : ((lap h n).visits state.fingerprint) = false := by
      rw [Bool.eq_false_iff, ne_eq, visits_lap]
      rintro (heq | heq)
      · exact hother heq.symm
      · exact hzero heq.symm
    show ((List.range' (n + 2) (n + 2 + 1 - (n + 2))).any _) = true
    rw [show n + 2 + 1 - (n + 2) = 1 by omega]
    simp only [List.range'_one, List.any_cons, hlast]
    show (!(lap h n).visits state.fingerprint || _) = true
    rw [hvisits]
    rfl
  rw [Chase.advance?, if_pos hleaves, ite_self]

section Turns

variable {τ : Type} {S : Strategy τ}

/-- Between two rounds of the unit. -/
structure Between (k : Nat) (a : Pause Nat τ) : Prop where
  place : a.place = .scheduling k
  offered : a.session.offered = [.actor ⟨1⟩]
  observed : a.session.observer.observed = told (pendulumMark (k + 1))

/-- At the question of a round. -/
structure Within (k : Nat) (a : Pause Nat τ) : Prop where
  place : a.place = .question (.boolean 2) (pendulumSwing k)
  offered : a.session.offered = [.actor ⟨1⟩]
  observed : a.session.observer.observed = told 0

variable (hS : ∀ r scene s, (S.answer r scene s).observer.observed = scene.observer.observed)

include hS

theorem turn_between {k : Nat} {a : Pause Nat τ} (ha : Between k a)
    (hrunning : a.session.halted = false) {v : (a.place.request pendulum).Reply}
    (hv : (a.answer S pendulum).result = .ok v) :
    ∃ b, a.turn S pendulum = .inl b ∧ Within k b := by
  obtain ⟨x, s⟩ := a
  obtain ⟨hx, hoffered, hobserved⟩ := ha
  cases hx
  rw [Pause.turn, hv, resume_ok]
  refine ⟨_, settle_ask_of_running (s := (((Pause.mk (.scheduling k) s).answered S pendulum).record
    pendulum (.scheduling k) v).tell (.localHash ⟨1⟩ 0)) (by simpa [Pause.answered] using hrunning),
    rfl, hoffered, ?_⟩
  rw [Session.tell_observed, Session.record_observer]
  show (S.answer _ _ _).observer.observed.note _ _ = _
  rw [hS]
  show s.observer.observed.note _ _ = _
  rw [hobserved, note_told]

theorem turn_within {k : Nat} {a : Pause Nat τ} (ha : Within k a)
    (hrunning : a.session.halted = false) {v : (a.place.request pendulum).Reply}
    (hv : (a.answer S pendulum).result = .ok v) :
    (S.atBound (a.answer S pendulum).state = true ∧ ∃ r, a.turn S pendulum = .inr r) ∨
      ∃ b, a.turn S pendulum = .inl b ∧ Between (k + 1) b := by
  obtain ⟨x, s⟩ := a
  obtain ⟨hx, hoffered, hobserved⟩ := ha
  cases hx
  have hturn : (Pause.mk (.question (.boolean 2) (pendulumSwing k)) s).turn S pendulum =
      pendulum.schedule S.isFull (k + 1)
        ((((Pause.mk (.question (.boolean 2) (pendulumSwing k)) s).answered S pendulum).record
          pendulum (.question (.boolean 2) (pendulumSwing k)) v).tell
            (.localHash ⟨1⟩ (pendulumMark k))) := by
    rw [Pause.turn, hv, resume_ok]
    exact offer_of_running (by simpa [Pause.answered] using hrunning) rfl
  rw [hturn]
  unfold Program.schedule
  split
  · rename_i hfull
    exact .inl ⟨hfull, _, rfl⟩
  · refine .inr ⟨_, rfl, rfl, rfl, ?_⟩
    show ((Session.tell _ _).observer).observed = _
    rw [Session.tell_observed, Session.record_observer]
    show (S.answer _ _ _).observer.observed.note _ _ = _
    rw [hS]
    show s.observer.observed.note _ _ = _
    rw [hobserved, note_told, mark_add_two]

/-- Where the program is at a request. -/
theorem pauseAt_places {start : τ} (k : Nat) :
    (∀ a, pendulum.pauseAt S start (2 * k) = some a → Between k a) ∧
      ∀ a, pendulum.pauseAt S start (2 * k + 1) = some a → Within k a := by
  have hwithin : ∀ k, (∀ a, pendulum.pauseAt S start (2 * k) = some a → Between k a) →
      ∀ b, pendulum.pauseAt S start (2 * k + 1) = some b → Within k b := by
    intro k hbetween b hb
    obtain ⟨a, ha, hab⟩ := pauseAt_of_succ hb
    obtain ⟨v, hv, _⟩ := turn_eq_inl hab
    obtain ⟨b', hb', hwithin⟩ := turn_between hS (hbetween a ha) (pauseAt_open ha).running hv
    rw [hb'] at hab
    cases hab
    exact hwithin
  induction k with
  | zero =>
    have hzero : ∀ a, pendulum.pauseAt S start (2 * 0) = some a → Between 0 a := by
      intro a ha
      have hopen := pauseAt_open ha
      have hopening := Sum.getLeft?_eq_some_iff.1 ha
      unfold Program.opening at hopening
      simp only [pendulum, Program.settle] at hopening
      simp only [Program.offer, Program.schedule] at hopening
      repeat' split at hopening
      all_goals cases hopening
      refine ⟨rfl, rfl, ?_⟩
      simp only [Session.tell_observed]
      rfl
    exact ⟨hzero, hwithin 0 hzero⟩
  | succ k ih =>
    have hsucc : ∀ a, pendulum.pauseAt S start (2 * (k + 1)) = some a → Between (k + 1) a := by
      intro b hb
      obtain ⟨a, ha, hab⟩ := pauseAt_of_succ (n := 2 * k + 1) hb
      obtain ⟨v, hv, _⟩ := turn_eq_inl hab
      rcases turn_within hS (ih.2 a ha) (pauseAt_open ha).running hv with ⟨_, r, hr⟩ | ⟨b', hb', h⟩
      · rw [hr] at hab
        cases hab
      · rw [hb'] at hab
        cases hab
        exact h
    exact ⟨hsucc, hwithin (k + 1) hsucc⟩

end Turns

theorem photo_eq {τ : Type} {s : Session τ} {h : UInt64} (hobserved : s.observer.observed = told h)
    (hoffered : s.offered = [.actor ⟨1⟩]) : s.photo = view h := by
  unfold Session.photo view Observer.look
  rw [hobserved, hoffered]

/-- The strategy before its first run. -/
abbrev opening : Watched DepthFirst := ⟨.new 0 0 0, .new 3⟩

/-- Just before a lap: its steps and the earlier occurrence of its state are known. -/
structure Ready (k : Nat) (a : Pause Nat (Watched DepthFirst)) : Prop where
  pauseAt : pendulum.pauseAt (Watched.strategy DepthFirst.strategy) opening (2 * k + 3) = some a
  chase : a.session.strategy.detector.chase = none
  ahead : a.session.strategy.base.ahead = []
  boolean : a.session.trace.get? (2 * k + 1) = some (.boolean false)
  unit : a.session.trace.get? (2 * k + 2) = some (.unit ⟨1⟩)
  occurrences : ∃ earlier,
    (a.session.observer.occurrences (view 0).fingerprint).toList = earlier ++ [2 * k]

theorem blind : DepthFirst.strategy.IsBlind := fun _ _ _ => rfl

theorem observed_answer (r : Request) (scene : Scene) (s : Watched DepthFirst) :
    ((Watched.strategy DepthFirst.strategy).answer r scene s).observer.observed =
      scene.observer.observed := (watched_conforms depthFirst_conforms).observed r scene s

/-- The state before the question was last seen one lap ago. -/
theorem cycleFrom_ready {k : Nat} {a : Pause Nat (Watched DepthFirst)} (ha : Ready k a)
    {o : Observer} (hphoto : Photographed a.session.observer o (2 * k + 2) (view 0))
    (hstate : o.snapshotAt? (2 * k + 1) = some (view (pendulumMark k))) :
    2 ≤ (o.occurrences (view 0).fingerprint).count ∧
      Detector.cycleFrom { a.session.scene with observer := o }
        (o.occurrences (view 0).fingerprint) ((o.occurrences (view 0).fingerprint).count - 2) =
          lap (pendulumMark k) (2 * k + 1) := by
  have hlength := length_trace_pauseAt ha.pauseAt
  have hlast : o.snapshotAt? (2 * k + 2) = some (view 0) := by
    rw [hphoto.snapshotAt?, if_pos rfl]
  obtain ⟨earlier, hearlier⟩ := ha.occurrences
  have hlist : (o.occurrences (view 0).fingerprint).toList =
      earlier ++ [2 * k] ++ [2 * k + 2] := by
    rw [hphoto.occurrences, if_pos rfl, Occurrences.toList_add, hearlier]
  have hcount : (o.occurrences (view 0).fingerprint).count = earlier.length + 2 := by
    rw [← Occurrences.length_toList, hlist]
    simp
  refine ⟨by omega, ?_⟩
  have hget : (earlier ++ [2 * k] ++ [2 * k + 2])[earlier.length + 2 - 2]? = some (2 * k) := by
    simp
  rw [Detector.cycleFrom, hcount, Occurrences.get?_eq_getElem?_toList, hlist, hget,
    Option.getD_some, Cycle.collect]
  show (List.range' _ (a.session.trace.length - _)).filterMap _ = _
  rw [hlength, show 2 * k + 3 - (2 * k + 1) = 2 by omega]
  simp [List.range', lap, ha.boolean, ha.unit, hstate, hlast, Session.scene]

theorem ready_finding {k : Nat} {a : Pause Nat (Watched DepthFirst)} (ha : Ready k a) :
    ∃ d o, a.session.strategy.finding DepthFirst.strategy a.session.scene = (none, d, o) ∧
      d.chase = some (begun (pendulumMark k) (2 * k + 1)) ∧
      Photographed a.session.observer o (2 * k + 2) (view 0) := by
  have hwatching := watching_pauseAt depthFirst_conforms blind trivial ha.pauseAt
  have hplace := (pauseAt_places observed_answer (k + 1)).2 a ha.pauseAt
  obtain ⟨b, hb⟩ := pauseAt_of_le (show 2 * k + 2 ≤ 2 * k + 3 by omega) ha.pauseAt
  have hbefore := (pauseAt_places observed_answer (k + 1)).1 b hb
  have hlooks := looks hwatching
  have hknown := hlooks.known hwatching (2 * k + 1)
  have hobserver := answer_observer (P := pendulum) blind a
  obtain ⟨o, hphoto, hsought, hresult⟩ := hlooks.taken (length_trace_pauseAt ha.pauseAt)
    (Nat.zero_le _)
  rw [hresult] at hknown hobserver
  rw [photo_eq hplace.observed hplace.offered] at hphoto hsought
  have hstate : o.snapshotAt? (2 * k + 1) = some (view (pendulumMark k)) := by
    have hlength := length_trace_pauseAt ha.pauseAt
    obtain ⟨state, hstate⟩ := Option.isSome_iff_exists.1 (hknown.2 ⟨by omega, Nat.zero_le _⟩)
    have htaken : state = b.session.photo := photograph_pauseAt depthFirst_conforms blind trivial
      hb 1 a ha.pauseAt (by rw [hobserver]; exact hstate)
    rw [hstate, htaken, photo_eq hbefore.observed hbefore.offered, mark_add_two]
  obtain ⟨hcount, hcycle⟩ := cycleFrom_ready ha hphoto hstate
  have hrepeated : (o.sighting (view 0).fingerprint).repeated = true := by
    simpa [Observer.sighting] using Nat.lt_of_succ_le hcount
  have hjudged : (a.session.strategy.sought DepthFirst.strategy a.session.scene).chase =
      some (.begin 0 (lap (pendulumMark k) (2 * k + 1))
        (lap (pendulumMark k) (2 * k + 1)).hotMonitors) := by
    rw [hsought, Detector.judged, if_pos hrepeated, seek_of_fair ha.chase hcount hcycle
      (isFair_lap _ _) (hotMonitors_lap_ne _ _), hwatching.threshold_eq]
    rfl
  have hlast : o.snapshotAt? (2 * k + 2) = some (view 0) := by
    rw [hphoto.snapshotAt?, if_pos rfl]
  rw [hresult, heatUp_of_advance hjudged
    (advance?_lap hlast (hphoto.observed.trans hplace.observed))
    (by simp [begun, Chase.begin, lap, Chase.heatPerStep])]
  exact ⟨_, o, rfl, rfl, hphoto⟩

theorem answer_ready {k : Nat} {a : Pause Nat (Watched DepthFirst)} (ha : Ready k a) :
    ∃ (v : (a.place.request pendulum).Reply) (o : Observer),
      (a.answer (Watched.strategy DepthFirst.strategy) pendulum).result = .ok v ∧
      a.place.choice pendulum v = .boolean false ∧
      (a.answer (Watched.strategy DepthFirst.strategy) pendulum).state.detector.chase =
        some (begun (pendulumMark k) (2 * k + 1)).step ∧
      (a.answer (Watched.strategy DepthFirst.strategy) pendulum).state.base =
        a.session.strategy.base ∧
      (a.answer (Watched.strategy DepthFirst.strategy) pendulum).observer = o ∧
      Photographed a.session.observer o (2 * k + 2) (view 0) := by
  have hplace := ((pauseAt_places observed_answer (k + 1)).2 a ha.pauseAt).place
  obtain ⟨d, o, hfinding, hchase, hphoto⟩ := ready_finding ha
  have hanswer := answer_cases (S := DepthFirst.strategy) (P := pendulum) a
  obtain ⟨x, s⟩ := a
  cases hplace
  generalize Pause.answer _ _ _ = answer at hanswer ⊢
  cases hanswer with
  | confirmed hfinding' => rw [hfinding] at hfinding'; cases hfinding'
  | followed hfinding' hchase' hstep haccept =>
    rw [hfinding] at hfinding'
    cases hfinding'
    rw [hchase] at hchase'
    cases hchase'
    cases hstep
    cases haccept
    exact ⟨false, o, rfl, rfl, rfl, rfl, rfl, hphoto⟩
  | forwarded hfinding' hunfit =>
    rw [hfinding] at hfinding'
    cases hfinding'
    cases hunfit _ _ hchase rfl

/-- The reply is that of the cycle, so that the unit is scheduled once more. -/
theorem ready_turn {k : Nat} {a : Pause Nat (Watched DepthFirst)} (ha : Ready k a) :
    ∃ b, pendulum.pauseAt (Watched.strategy DepthFirst.strategy) opening (2 * k + 4) = some b ∧
      b.session.strategy.detector.chase = some (begun (pendulumMark k) (2 * k + 1)).step ∧
      b.session.strategy.base.ahead = [] ∧
      b.session.trace.get? (2 * k + 3) = some (.boolean false) ∧
      ∃ earlier, (b.session.observer.occurrences (view 0).fingerprint).toList =
        earlier ++ [2 * k + 2] := by
  have hplace := (pauseAt_places observed_answer (k + 1)).2 a ha.pauseAt
  obtain ⟨v, o, hv, hchoice, hchase, hbase, hobserver, hphoto⟩ := answer_ready ha
  rcases turn_within observed_answer hplace (pauseAt_open ha.pauseAt).running hv with
    ⟨hfull, _⟩ | ⟨b, hb, _⟩
  · change (((a.answer (Watched.strategy DepthFirst.strategy) pendulum).state.detector.chase).isNone
      && _) = true at hfull
    rw [hchase] at hfull
    cases hfull
  · obtain ⟨v', hv', hstrategy, htrace, halbum, _⟩ := turn_eq_inl hb
    rw [hv] at hv'
    cases hv'
    obtain ⟨earlier, hearlier⟩ := ha.occurrences
    refine ⟨b, pauseAt_succ ha.pauseAt hb, by rw [hstrategy]; exact hchase,
      by rw [hstrategy, hbase]; exact ha.ahead, ?_, earlier ++ [2 * k], ?_⟩
    · rw [htrace, hchoice, Trace.get?_push, if_pos (length_trace_pauseAt ha.pauseAt).symm]
    · rw [Observer.occurrences, halbum, hobserver]
      change (o.occurrences _).toList = _
      rw [hphoto.occurrences, if_pos rfl, Occurrences.toList_add, hearlier]

theorem reply_alone {s : DepthFirst} (h : s.ahead = []) :
    s.reply (.unit [.actor ⟨1⟩] none) = (.ok ⟨1⟩, s.pass ⟨.units [⟨1⟩], 0⟩ []) := by
  simp [DepthFirst.reply, enabledIds, Candidate.actor, DepthFirst.visit, h, Except.map]

/-- After a lap the cycle is given up, since the other state is met. -/
theorem finding_after_lap {k : Nat} {b : Pause Nat (Watched DepthFirst)}
    (hb : pendulum.pauseAt (Watched.strategy DepthFirst.strategy) opening (2 * k + 4) = some b)
    (hchase : b.session.strategy.detector.chase =
      some (begun (pendulumMark k) (2 * k + 1)).step) :
    ∃ d o, b.session.strategy.finding DepthFirst.strategy b.session.scene = (none, d, o) ∧
      d.chase = none ∧
      Photographed b.session.observer o (2 * k + 3) (view (pendulumMark (k + 1))) := by
  have hplace := (pauseAt_places observed_answer (k + 2)).1 b hb
  obtain ⟨o, hphoto, hsought, hresult⟩ :=
    (looks (watching_pauseAt depthFirst_conforms blind trivial hb)).taken
      (length_trace_pauseAt hb) (Nat.zero_le _)
  rw [judged_of_chase hchase] at hsought
  rw [photo_eq hplace.observed hplace.offered, mark_add_two] at hphoto
  have hcold : ∀ c, b.session.strategy.detector.chase = some c →
      c.advance? o (2 * k + 3) = none := by
    intro c hc
    rw [hchase] at hc
    cases hc
    exact advance?_begun (by rw [hphoto.snapshotAt?, if_pos rfl]) (fingerprint_ne k).2
      (fingerprint_ne (k + 1)).1
  rw [hresult, hsought, heatUp_of_cold hcold]
  exact ⟨_, o, rfl, rfl, hphoto⟩

/-- There the search below gives the reply. -/
theorem answer_after_lap {k : Nat} {b : Pause Nat (Watched DepthFirst)}
    (hplace : b.place = .scheduling k) {d : Detector} {o : Observer}
    (hfinding : b.session.strategy.finding DepthFirst.strategy b.session.scene = (none, d, o))
    (hnone : d.chase = none) (hahead : b.session.strategy.base.ahead = []) :
    ∃ v, (b.answer (Watched.strategy DepthFirst.strategy) pendulum).result = .ok v ∧
      b.place.choice pendulum v = .unit ⟨1⟩ ∧
      (b.answer (Watched.strategy DepthFirst.strategy) pendulum).state.detector.chase = none ∧
      (b.answer (Watched.strategy DepthFirst.strategy) pendulum).state.base.ahead = [] := by
  have hanswer := answer_cases (S := DepthFirst.strategy) (P := pendulum) b
  obtain ⟨x, s⟩ := b
  cases hplace
  generalize Pause.answer _ _ _ = answer at hanswer ⊢
  cases hanswer with
  | confirmed hfinding' => rw [hfinding] at hfinding'; cases hfinding'
  | followed hfinding' hchase' =>
    rw [hfinding] at hfinding'
    cases hfinding'
    rw [hnone] at hchase'
    cases hchase'
  | forwarded hfinding' =>
    rw [hfinding] at hfinding'
    cases hfinding'
    refine ⟨⟨1⟩, ?_, rfl, rfl, ?_⟩
    · show (DepthFirst.reply (.unit [.actor ⟨1⟩] none) s.strategy.base).1 = .ok (⟨1⟩ : UnitId)
      rw [reply_alone hahead]
    · show (DepthFirst.reply (.unit [.actor ⟨1⟩] none) _).2.ahead = _
      rw [reply_alone hahead]
      rfl

theorem ready_succ {k : Nat} {a : Pause Nat (Watched DepthFirst)} (ha : Ready k a) :
    ∃ c, Ready (k + 1) c := by
  obtain ⟨b, hb, hchase, hahead, hboolean, earlier, hearlier⟩ := ready_turn ha
  have hplace := (pauseAt_places observed_answer (k + 2)).1 b hb
  have hlength := length_trace_pauseAt hb
  obtain ⟨d, o, hfinding, hnone, hphoto⟩ := finding_after_lap hb hchase
  have hobserver := answer_observer (P := pendulum) blind b
  rw [hfinding] at hobserver
  obtain ⟨v, hv, hchoice, hcold, hahead'⟩ := answer_after_lap hplace.place hfinding hnone hahead
  obtain ⟨c, hc, _⟩ := turn_between observed_answer hplace (pauseAt_open hb).running hv
  obtain ⟨v', hv', hstrategy, htrace, halbum, _⟩ := turn_eq_inl hc
  rw [hv] at hv'
  cases hv'
  refine ⟨c, pauseAt_succ hb hc, by rw [hstrategy]; exact hcold, by rw [hstrategy]; exact hahead',
    ?_, ?_, earlier, ?_⟩
  · rw [htrace, Trace.get?_push, if_neg (by omega)]
    exact hboolean
  · rw [htrace, hchoice, Trace.get?_push, if_pos (by omega)]
  · rw [Observer.occurrences, halbum, hobserver]
    change (o.occurrences _).toList = _
    rw [hphoto.occurrences, if_neg (fingerprint_ne (k + 1)).1]
    exact hearlier

theorem ready_zero : ∃ a, Ready 0 a := by
  obtain ⟨a, ha, htest⟩ := (Option.any_eq_true _ _).1
    (show (pendulum.pauseAt (Watched.strategy DepthFirst.strategy) opening 3).any (fun a =>
      a.session.strategy.detector.chase.isNone &&
        (decide (a.session.strategy.base.ahead = []) &&
          (decide (a.session.trace = ⟨#[.unit ⟨1⟩, .boolean false, .unit ⟨1⟩]⟩) &&
            decide ((a.session.observer.occurrences (view 0).fingerprint).toList = [0])))) =
      true by decide +kernel)
  simp only [Bool.and_eq_true, Option.isNone_iff_eq_none, decide_eq_true_eq] at htest
  obtain ⟨hnone, hahead, htrace, hoccurrences⟩ := htest
  exact ⟨a, ha, hnone, hahead, by rw [htrace]; rfl, by rw [htrace]; rfl, [], hoccurrences⟩

theorem exists_ready (k : Nat) : ∃ a, Ready k a := by
  induction k with
  | zero => exact ready_zero
  | succ k ih =>
    obtain ⟨a, ha⟩ := ih
    exact ready_succ ha

end Pendulum

/-- The bound of three steps is never looked at: each time a cycle is given up the search below
replies at its bound, and at the question after it the next cycle begins. -/
theorem pendulum_never_ends :
    threeSteps.plan 0 = .ok threeStepsPlan ∧
      ∀ fuel, pendulum.run fuel threeStepsPlan.strategy threeStepsPlan.start = none := by
  refine ⟨rfl, fun fuel => ?_⟩
  rw [Option.eq_none_iff_forall_ne_some]
  intro result hresult
  obtain ⟨n, hn⟩ := concludes_opening_iff.1 (exists_run_iff.1 ⟨fuel, result, hresult⟩)
  obtain ⟨a, ha⟩ := Pendulum.exists_ready n
  obtain ⟨b, hb⟩ := pauseAt_of_le (show n ≤ 2 * n + 3 by omega) ha.pauseAt
  rw [show pendulum.pauseAt threeStepsPlan.strategy threeStepsPlan.start n = some b from hb] at hn
  cases hn

end Pendulum

end Interleave
