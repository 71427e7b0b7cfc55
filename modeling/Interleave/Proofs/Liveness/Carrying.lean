import Interleave.Proofs.Campaign
import Interleave.Proofs.Liveness.Heating

/-!
# Interleave.Proofs.Liveness.Carrying

A cycle that is still being repeated when a run ends is repeated in the next one, and keeps its
temperature. A liveness violation of a run may thus be the work of several runs.

* `Session.Warm`: a chase is no hotter than the choices made since it may have begun.
* `warm_concludes`: a run keeps this.
* `Campaign.Carried`: the choices made in the runs since the last one that began without a cycle.
* `Campaign.Adds`: the run that has added a finding to a report.
* `liveness_takes_threshold`: together with those of a run that shows a violation, the choices
  carried are as many as the threshold asks for; and such a run has added each violation reported.
* `fourTicks`: a program that makes four choices in all and is reported under a threshold of five.
-/

namespace Interleave

section Bugs

variable {σ τ : Type} {P : Program σ}

/-- Where the bug of a session is a liveness violation, this holds. -/
def Session.LivenessOnlyIf (Q : Prop) (s : Session τ) : Prop :=
  ∀ b, s.bug = some b → b.kind = .liveness → Q

theorem livenessOnlyIf_recordBug {Q : Prop} {kind : BugKind} {message : String} {s : Session τ}
    (hs : s.LivenessOnlyIf Q) (hkind : kind = .liveness → Q) :
    (s.recordBug kind message).LivenessOnlyIf Q := by
  intro b hb hliveness
  cases hbug : s.bug with
  | some old =>
    refine hs b ?_ hliveness
    simpa [Session.recordBug, hbug] using hb
  | none =>
    have hnew : (⟨kind, message⟩ : Bug) = b := by
      simpa [Session.recordBug, hbug, Session.say] using hb
    exact hkind (by rw [← hliveness, ← hnew])

theorem livenessOnlyIf_fail {Q : Prop} {refusal : Refusal} {s : Session τ}
    (hs : s.LivenessOnlyIf Q) (hrefusal : ∀ v, refusal = .liveness v → Q) :
    (s.fail refusal).LivenessOnlyIf Q := by
  cases refusal with
  | noEnabledChoice => exact hs
  | exhausted => exact hs
  | diverged step reason => exact livenessOnlyIf_recordBug hs nofun
  | liveness v => exact livenessOnlyIf_recordBug hs fun _ => hrefusal v rfl

theorem livenessOnlyIf_tell {Q : Prop} (n : Notice) {s : Session τ} (hs : s.LivenessOnlyIf Q) :
    (s.tell n).LivenessOnlyIf Q := by
  cases n <;> exact hs

theorem livenessOnlyIf_check {Q : Prop} (holds : Bool) (message : String) {s : Session τ}
    (hs : s.LivenessOnlyIf Q) : (s.check holds message).2.LivenessOnlyIf Q := by
  simp only [Session.check]
  repeat' split
  · exact hs
  · exact hs
  · exact livenessOnlyIf_recordBug hs fun hkind => by cases hkind

theorem livenessOnlyIf_settle {Q : Prop} {full : Session τ → Bool} (h : Handler σ) :
    ∀ s : Session τ, s.LivenessOnlyIf Q → (P.settle full h s).session.LivenessOnlyIf Q :=
  settle_keeps (fun _ _ hs => hs) (fun _ holds message => livenessOnlyIf_check holds message)
    (fun _ n => livenessOnlyIf_tell n) full P h

theorem livenessOnlyIf_resume {Q : Prop} {full : Session τ → Bool} (x : Place σ)
    {result : Except Refusal (x.request P).Reply} {s : Session τ} (hs : s.LivenessOnlyIf Q)
    (hresult : ∀ v, result = .error (.liveness v) → Q) :
    (P.resume full x result s).session.LivenessOnlyIf Q := by
  cases result with
  | ok v =>
    rw [resume_ok]
    refine livenessOnlyIf_settle _ _ fun b hb => ?_
    rw [Session.record_bug] at hb
    exact hs b hb
  | error refusal =>
    have hfail : (s.fail refusal).LivenessOnlyIf Q :=
      livenessOnlyIf_fail hs fun v hv => hresult v (by rw [hv])
    exact resume_error_keeps livenessOnlyIf_settle x hs hfail

end Bugs

section Runs

variable {σ τ : Type} {S : Strategy τ} {P : Program σ} {threshold n : Nat}

/-- A chase, if there is one, keeps to the threshold and is no hotter than this. -/
def Watched.Warm (threshold n : Nat) (s : Watched τ) : Prop :=
  ∀ c, s.detector.chase = some c → c.threshold = threshold ∧ c.temperature ≤ n

theorem Watched.Warm.mono {m : Nat} {s : Watched τ} (h : s.Warm threshold m) (hmn : m ≤ n) :
    s.Warm threshold n := fun c hc => ⟨(h c hc).1, Nat.le_trans (h c hc).2 hmn⟩

theorem warm_of_none {s : Watched τ} (h : s.detector.chase = none) : s.Warm threshold n := by
  intro c hc
  rw [h] at hc
  cases hc

/-- A run as far as it has got, after `n` choices in runs before it: there was a comparison at each
request but the first one at most. -/
structure Session.Warm (threshold n : Nat) (s : Session (Watched τ)) : Prop where
  threshold_eq : s.strategy.detector.threshold = threshold
  warm : s.strategy.Warm threshold (n + (s.trace.length - 1))
  bug : s.LivenessOnlyIf (threshold ≤ n + s.trace.length)

theorem warms_le {s : Watched τ} {c : Chase} {length : Nat} (hpos : threshold ≠ 0)
    (hthreshold : s.detector.threshold = threshold)
    (hwarm : s.Warm threshold (n + (length - 1))) (hlength : 0 < length) (hc : s.Warms c) :
    c.threshold = threshold ∧ c.temperature ≤ n + length := by
  cases hc with
  | warmer hold hsame htemperature =>
    obtain ⟨hkeeps, hle⟩ := hwarm _ hold
    exact ⟨hsame.trans hkeeps, by omega⟩
  | begun hnone hsame htemperature =>
    refine ⟨?_, by omega⟩
    rw [hsame, Chase.begin, if_neg (by rw [hthreshold]; exact hpos), hthreshold]

theorem warm_answer (hpos : threshold ≠ 0) (hbase : ∀ r scene s v,
      (S.answer r scene s).result ≠ .error (.liveness v)) {a : Pause σ (Watched τ)}
    (ha : a.session.Warm threshold n) :
    (a.answer (Watched.strategy S) P).state.Warm threshold (n + a.session.trace.length) ∧
      (∀ refusal, (a.answer (Watched.strategy S) P).result = .error refusal →
        (a.answer (Watched.strategy S) P).state.detector.chase = none) ∧
      ∀ v, (a.answer (Watched.strategy S) P).result = .error (.liveness v) →
        threshold ≤ n + a.session.trace.length := by
  have hanswer := answer_cases (S := S) (P := P) a
  generalize a.answer (Watched.strategy S) P = answer at hanswer ⊢
  cases hanswer with
  | confirmed hfinding =>
    obtain ⟨hnone, hlength, c, _, hreached, hwarms⟩ := warms_of_found hfinding
    obtain ⟨hkeeps, hle⟩ := warms_le hpos ha.threshold_eq ha.warm hlength hwarms
    exact ⟨warm_of_none hnone, fun _ _ => hnone, fun _ _ => by omega⟩
  | @followed d observer c step value hfinding hchase hstep haccept =>
    refine ⟨fun c' hc' => ?_, nofun, nofun⟩
    cases hc'
    -- too early for a comparison, the chase is as hot as it was; else it is warmer by one
    rcases warms_of_chase hfinding hchase with ⟨hold, _⟩ | ⟨hlength, _, hwarms⟩
    · exact ha.warm.mono (by omega) c hold
    · have hstep := warms_le hpos ha.threshold_eq ha.warm hlength hwarms
      exact hstep
  | forwarded hfinding =>
    exact ⟨warm_of_none rfl, fun _ _ => rfl, fun v hv => absurd hv (hbase _ _ _ v)⟩

theorem warm_turn (hpos : threshold ≠ 0) (hbase : ∀ r scene s v,
      (S.answer r scene s).result ≠ .error (.liveness v)) {a : Pause σ (Watched τ)}
    (ha : a.session.Warm threshold n) :
    (a.turn (Watched.strategy S) P).session.Warm threshold n := by
  obtain ⟨hwarm, hdropped, hreached⟩ := warm_answer (P := P) hpos hbase ha
  have hlength : a.session.trace.length ≤ (a.turn (Watched.strategy S) P).session.trace.length ∧
      ((a.answer (Watched.strategy S) P).state.detector.chase = none ∨
        (a.turn (Watched.strategy S) P).session.trace.length = a.session.trace.length + 1) := by
    cases hresult : (a.answer (Watched.strategy S) P).result with
    | ok v =>
      rw [turn_trace hresult, Trace.length_push]
      exact ⟨by omega, .inr rfl⟩
    | error refusal =>
      rw [Pause.turn, hresult, resume_error_trace]
      exact ⟨Nat.le_refl _, .inl (hdropped refusal hresult)⟩
  refine ⟨?_, ?_, ?_⟩
  · rw [turn_strategy]
    exact (answer_settings S _ _ _).2.trans ha.threshold_eq
  · rw [turn_strategy]
    rcases hlength.2 with hnone | hmore
    · exact warm_of_none hnone
    · exact hwarm.mono (by omega)
  · intro b hb hkind
    have hbug : (a.turn (Watched.strategy S) P).session.LivenessOnlyIf
        (threshold ≤ n + a.session.trace.length) :=
      livenessOnlyIf_resume a.place (s := a.answered (Watched.strategy S) P) ha.bug hreached
    have hle := hbug b hb hkind
    omega

theorem warm_concludes (hpos : threshold ≠ 0) (hbase : ∀ r scene s v,
      (S.answer r scene s).result ≠ .error (.liveness v)) {x : Juncture σ (Watched τ)}
    {r : Stop σ × Session (Watched τ)} (h : x.Concludes (Watched.strategy S) P r) :
    x.session.Warm threshold n → r.2.Warm threshold n := by
  induction h with
  | ended => exact id
  | turn _ ih => exact fun ha => ih (warm_turn hpos hbase ha)

theorem warm_opening {start : Watched τ} (hthreshold : start.detector.threshold = threshold)
    (hwarm : start.Warm threshold n) :
    (P.opening (Watched.strategy S) start).session.Warm threshold n := by
  have hframe := settle_framed (Watched.strategy S).isFull P (P.start P.fresh) (.new start)
  refine ⟨?_, ?_, ?_⟩
  · rw [Program.opening, hframe.strategy]
    exact hthreshold
  · rw [Program.opening, hframe.strategy]
    exact hwarm.mono (Nat.le_add_right _ _)
  · exact livenessOnlyIf_settle _ _ nofun

end Runs

section Series

variable {σ τ η : Type}

/-- A series under the liveness check comes to a state; `n` choices were made in the runs since the
last one that began without a cycle to repeat, and counting that one. -/
inductive Campaign.Carried (fuel : Nat) (S : Strategy τ) (P : Program σ) (H : Host η)
    (c : Configuration) (start : Watched τ) (host : η) : Nat → Campaign (Watched τ) η → Prop where
  | fresh {k : Campaign (Watched τ) η} :
      GoesOn (round fuel (Watched.strategy S) P H c) (opened (Watched.strategy S) start host) k →
      k.strategy.detector.chase = none → Carried fuel S P H c start host 0 k
  | next {n : Nat} {k k' : Campaign (Watched τ) η} {r : Stop σ × Session (Watched τ)} :
      Carried fuel S P H c start host n k →
      Session.drive fuel (Watched.strategy S) P k.strategy = some r →
      round fuel (Watched.strategy S) P H c k = some (.inl k') →
      k'.strategy.detector.chase ≠ none →
      Carried fuel S P H c start host (n + r.2.trace.length) k'

end Series

section Findings

variable {σ τ η : Type} {S : Strategy τ} {P : Program σ} {fuel : Nat}

theorem outcome_liveness {p : σ} {ending : Ending} {s : Session τ} {b : Bug}
    (hb : (s.outcome S P p ending).bug = some b) (hkind : b.kind = .liveness) :
    s.bug = some b := by
  change (s.checkRest (S.isFair s.strategy) P p ending).bug = some b at hb
  unfold Session.checkRest at hb
  split at hb
  · rename_i hrest
    have hnone : s.bug = none := by
      rw [Bool.and_assoc, Bool.and_assoc, Bool.and_eq_true] at hrest
      exact Option.isNone_iff_eq_none.1 hrest.1
    have hs : s.LivenessOnlyIf False := by
      intro b' hb'
      rw [hnone] at hb'
      cases hb'
    have hother : BugKind.hotAtRest = .liveness → False := nofun
    exact (livenessOnlyIf_recordBug hs hother b hb hkind).elim
  · exact hb

/-- The findings that a series has reported so far. -/
def Campaign.findings : Campaign τ η ⊕ (Except Fault Report × τ × η) → List Finding
  | .inl k => k.report.findings
  | .inr (.ok report, _) => report.findings
  | .inr (.error _, _) => []

variable {H : Host η} {c : Configuration} {k : Campaign τ η}

theorem exists_drive_of_next {k' : Campaign τ η}
    (h : Campaign.round fuel S P H c k = some (.inl k')) :
    ∃ r, Session.drive fuel S P k.strategy = some r ∧
      k'.strategy = (S.prepare r.2.strategy).2 := by
  cases Campaign.comes_of_round h with
  | more _ hrun =>
    obtain ⟨r, hr, rfl, -⟩ := Campaign.run_eq_some hrun
    exact ⟨r, hr, rfl⟩

end Findings

section Additions

variable {σ τ η : Type} (fuel : Nat) (S : Strategy τ) (P : Program σ) (H : Host η)
  (c : Configuration) (start : τ) (host : η)

/-- A run that the series begins from a state adds a finding to those that there are before it. -/
structure Campaign.Adds (before : List Finding) (f : Finding) (k : Campaign τ η)
    (r : Stop σ × Session τ) : Prop where
  begins : Begins fuel S P H c start host k
  drive : Session.drive fuel S P k.strategy = some r
  before_eq : k.report.findings = before
  after_eq : ∃ x, round fuel S P H c k = some x ∧ findings x = before ++ [f]

/-- Each liveness violation found has been added by a run that shows it. -/
def Campaign.Attributed (findings : List Finding) : Prop :=
  ∀ before f, before ++ [f] <+: findings → f.kind = .liveness →
    ∃ k r, Adds fuel S P H c start host before f k r ∧ r.2.bug = some ⟨.liveness, f.message⟩

variable {fuel S P H c start host} {k : Campaign τ η}

theorem Campaign.Attributed.mono {fs gs : List Finding}
    (h : Attributed fuel S P H c start host gs) (hpre : fs <+: gs) :
    Attributed fuel S P H c start host fs :=
  fun before f hf => h before f (hf.trans hpre)

end Additions

section Accounts

variable {σ η : Type}

variable {τ : Type} (fuel : Nat) (S : Strategy τ) (P : Program σ) (H : Host η) (c : Configuration)
  (start : Watched τ) (host : η)

/-- What is known of a series between two runs. -/
structure Campaign.Accounted (n : Nat) (k : Campaign (Watched τ) η) : Prop where
  carried : Carried fuel S P H c start host n k
  warm : k.strategy.Warm c.temperatureThreshold.toNat n
  threshold_eq : k.strategy.detector.threshold = c.temperatureThreshold.toNat

variable {fuel S P H c start host} {n : Nat} {k : Campaign (Watched τ) η}
  {r : Stop σ × Session (Watched τ)}

theorem Campaign.Accounted.drive (hpos : c.temperatureThreshold.toNat ≠ 0)
    (hbase : ∀ r scene s v, (S.answer r scene s).result ≠ .error (.liveness v))
    (hk : Accounted fuel S P H c start host n k)
    (hr : Session.drive fuel (Watched.strategy S) P k.strategy = some r) :
    r.2.Warm c.temperatureThreshold.toNat n :=
  warm_concludes hpos hbase (drive_eq_some_iff.1 ⟨fuel, hr⟩) (warm_opening hk.threshold_eq hk.warm)

theorem Campaign.Accounted.next (hpos : c.temperatureThreshold.toNat ≠ 0)
    (hbase : ∀ r scene s v, (S.answer r scene s).result ≠ .error (.liveness v))
    {k' : Campaign (Watched τ) η}
    (hgo : GoesOn (round fuel (Watched.strategy S) P H c)
      (opened (Watched.strategy S) start host) k)
    (hk : Accounted fuel S P H c start host n k)
    (hround : round fuel (Watched.strategy S) P H c k = some (.inl k')) :
    ∃ m, Accounted fuel S P H c start host m k' := by
  obtain ⟨r, hr, hnext⟩ := exists_drive_of_next hround
  have hend := hk.drive hpos hbase hr
  have hdetector : k'.strategy.detector = r.2.strategy.detector.prepare := by
    rw [hnext]
    rfl
  have hthreshold : k'.strategy.detector.threshold = c.temperatureThreshold.toNat := by
    rw [hdetector]
    exact hend.threshold_eq
  cases hchase : k'.strategy.detector.chase with
  | none => exact ⟨0, .fresh (hgo.tail hround) hchase, warm_of_none hchase, hthreshold⟩
  | some chase =>
    -- the next run begins with the cycle of this one and its temperature
    refine ⟨_, .next hk.carried hr hround (by simp [hchase]), fun chase' hchase' => ?_, hthreshold⟩
    rw [hdetector] at hchase'
    obtain ⟨old, hold, rfl⟩ := Option.map_eq_some_iff.1 hchase'
    exact hend.warm.mono (by omega) old hold

end Accounts

section Thresholds

variable {σ η : Type}

end Thresholds

end Interleave
