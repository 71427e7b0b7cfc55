import Interleave.Proofs.Pause.Simulation
import Interleave.Strategy.Replay

/-!
# Interleave.Proofs.Outcome

That what a run reports fits together, whatever the program does with a halt: it may pass it on,
ignore it, or end with one of its own.

* `Session.Coherent`: how bug, divergence and halt depend on each other. Every call of a handler
  keeps it, and so does every round.
* `Outcome.Consistent`: how they depend on the ending of the run.
* `Session.Sealed`: what is left of a handler after a halt asks nothing of the strategy and changes
  nothing but what it tells.
-/

namespace Interleave

section Coherence

variable {σ τ : Type}

/-- A run has a divergence exactly where its bug is one, a run with a bug is halted, and only the
end of a run is checked for rest. -/
structure Session.Coherent (s : Session τ) : Prop where
  divergence_iff : s.divergence.isSome = true ↔ s.bug.map (·.kind) = some .divergence
  halted_of_bug : s.bug.isSome = true → s.halted = true
  not_atRest : s.bug.map (·.kind) ≠ some .hotAtRest

namespace Session.Coherent

variable {s t : Session τ}

theorem new (strategy : τ) : (Session.new strategy).Coherent :=
  ⟨by simp [Session.new], nofun, nofun⟩

/-- Only the three fields matter. -/
theorem of_eq (hs : s.Coherent) (hdivergence : t.divergence = s.divergence) (hbug : t.bug = s.bug)
    (hhalted : t.halted = s.halted) : t.Coherent where
  divergence_iff := by rw [hdivergence, hbug]; exact hs.divergence_iff
  halted_of_bug := by rw [hbug, hhalted]; exact hs.halted_of_bug
  not_atRest := by rw [hbug]; exact hs.not_atRest

/-- As long as a run goes on there is neither a bug nor a divergence. -/
theorem clean (hs : s.Coherent) (h : s.halted = false) : s.bug = none ∧ s.divergence = none := by
  have hbug : s.bug = none := by
    cases hb : s.bug with
    | none => rfl
    | some b =>
      have hhalted := hs.halted_of_bug (by rw [hb]; rfl)
      rw [h] at hhalted
      cases hhalted
  refine ⟨hbug, ?_⟩
  cases hd : s.divergence with
  | none => rfl
  | some d =>
    have hkind := hs.divergence_iff.1 (by rw [hd]; rfl)
    rw [hbug] at hkind
    cases hkind

theorem halt (hs : s.Coherent) : Session.Coherent { s with halted := true } :=
  ⟨hs.divergence_iff, fun _ => rfl, hs.not_atRest⟩

/-- The first bug of a run, with the divergence where it is one. -/
theorem recordBug {kind : BugKind} {message : String} (hbug : s.bug = none)
    (hkind : s.divergence.isSome = true ↔ kind = .divergence) (hrest : kind ≠ .hotAtRest) :
    (s.recordBug kind message).Coherent := by
  have hnew : (s.recordBug kind message).bug = some ⟨kind, message⟩ := by
    simp [Session.recordBug, hbug]
  have hsame : (s.recordBug kind message).divergence = s.divergence :=
    (Framed.recordBug kind message s).divergence
  exact ⟨by rw [hsame, hkind, hnew]; simp, fun _ => recordBug_halted kind message s,
    by rw [hnew]; simpa using hrest⟩

theorem fail (hs : s.Coherent) (h : s.halted = false) (refusal : Refusal) :
    (s.fail refusal).Coherent := by
  obtain ⟨hbug, hdivergence⟩ := hs.clean h
  cases refusal with
  | noEnabledChoice => exact hs.halt
  | exhausted => exact hs.halt
  | diverged step reason => exact recordBug hbug (by simp) nofun
  | liveness v => exact recordBug hbug (by simp [hdivergence]) nofun

theorem tell (hs : s.Coherent) (n : Notice) : (s.tell n).Coherent := by
  cases n <;> exact hs.of_eq rfl rfl rfl

theorem check (hs : s.Coherent) (holds : Bool) (message : String) :
    (s.check holds message).2.Coherent := by
  unfold Session.check
  split
  · exact hs
  · rename_i h
    obtain ⟨hbug, hdivergence⟩ := hs.clean (by simpa using h)
    split
    · exact hs
    · exact recordBug hbug (by simp [hdivergence]) nofun

theorem ask (hs : s.Coherent) (S : Strategy τ) (q : Question) : (s.ask S q).2.Coherent := by
  unfold Session.ask
  split
  · exact hs
  · rename_i h
    have hasked : (s.request S q.request).2.Coherent := hs.of_eq rfl rfl rfl
    obtain ⟨result, t, hrequest⟩ : ∃ result t, s.request S q.request = (result, t) := ⟨_, _, rfl⟩
    have hhalted : t.halted = s.halted := by cases hrequest; rfl
    rw [hrequest] at hasked ⊢
    cases result with
    | ok value => exact hasked.of_eq rfl rfl rfl
    | error refusal => exact hasked.fail (by rw [hhalted]; simpa using h) refusal

/-- A handler keeps this call by call. -/
theorem run (S : Strategy τ) (h : Handler σ) : ∀ {s : Session τ}, s.Coherent →
    (h.run S s).2.Coherent := by
  induction h with
  | finish p => exact id
  | abort p => exact id
  | panic message => exact id
  | ask q next ih => exact fun hs => ih _ (hs.ask S q)
  | check holds message next ih => exact fun hs => ih _ (hs.check holds message)
  | tell n next ih => exact fun hs => ih (hs.tell n)

end Session.Coherent

/-- A run that ends otherwise than by a halt has not been halted. -/
structure Session.EndsCoherent (r : Stop σ × Session τ) : Prop where
  coherent : r.2.Coherent
  not_halted : ∀ ending p, r.1 = .ended ending p → ending ≠ .halted → r.2.halted = false

theorem Session.Coherent.ends_halted {p : σ} {s : Session τ} (hs : s.Coherent) :
    Session.EndsCoherent (.ended .halted p, s) :=
  ⟨hs, fun ending q hq hne => by cases hq; exact absurd rfl hne⟩

theorem Session.Coherent.ends_running {p : σ} {s : Session τ} (hs : s.Coherent)
    (h : s.halted = false) (ending : Ending) : Session.EndsCoherent (.ended ending p, s) :=
  ⟨hs, fun _ _ _ _ => h⟩

theorem coherent_afterHandler {x : Return σ × Session τ} (hx : x.2.Coherent) :
    Sum.elim (fun at_ => at_.2.Coherent) Session.EndsCoherent (Session.afterHandler x) := by
  obtain ⟨returned, s⟩ := x
  cases returned with
  | finished p => exact hx
  | aborted p => exact hx.ends_halted
  | panicked message => exact ⟨hx, nofun⟩

theorem coherent_round {S : Strategy τ} {P : Program σ} {p : σ} {s : Session τ} (hs : s.Coherent) :
    Sum.elim (fun at_ => at_.2.Coherent) Session.EndsCoherent (Session.round S P (p, s)) := by
  cases hhalted : s.halted with
  | true =>
    rw [round_of_halted hhalted]
    exact hs.ends_halted
  | false =>
    have hrunning : ¬ s.halted = true := by simp [hhalted]
    simp only [Session.round, if_neg hrunning]
    split
    · exact hs.ends_running hhalted _
    · split
      · exact hs.ends_running hhalted _
      · obtain ⟨result, t, hrequest⟩ : ∃ result t, Session.request S
            (.unit (P.units p) (P.current p)) { s with offered := P.units p } = (result, t) :=
          ⟨_, _, rfl⟩
        have ht : t.Coherent ∧ t.halted = false := by
          cases hrequest
          exact ⟨hs.of_eq rfl rfl rfl, hhalted⟩
        rw [hrequest]
        cases result with
        | ok u => exact coherent_afterHandler (.run S _ (ht.1.of_eq rfl rfl rfl))
        | error refusal =>
          cases refusal with
          | noEnabledChoice => exact ht.1.ends_running ht.2 _
          | exhausted => exact ht.1.ends_running ht.2 _
          | diverged step reason => exact (ht.1.fail ht.2 _).ends_halted
          | liveness v => exact (ht.1.fail ht.2 _).ends_halted

theorem coherent_drive {fuel : Nat} {S : Strategy τ} {P : Program σ} {start : τ}
    {r : Stop σ × Session τ} (h : Session.drive fuel S P start = some r) :
    Session.EndsCoherent r := by
  have hbegun := coherent_afterHandler (Session.Coherent.run S (P.start P.fresh) (.new start))
  unfold Session.drive at h
  split at h
  · rename_i stop hstop
    rw [hstop] at hbegun
    cases h
    exact hbegun
  · rename_i begun hstart
    rw [hstart] at hbegun
    refine (ends_of_iterate _ _ _ h).of_invariant (I := fun at_ => at_.2.Coherent) hbegun ?_ ?_
    · intro at_ next hat hround
      have hkept := coherent_round (S := S) (P := P) (p := at_.1) hat
      rw [Option.some.inj hround] at hkept
      exact hkept
    · intro at_ stop hat hround
      have hkept := coherent_round (S := S) (P := P) (p := at_.1) hat
      rw [Option.some.inj hround] at hkept
      exact hkept

end Coherence

section Consistency

variable {σ τ : Type} {S : Strategy τ} {P : Program σ}

/-- The kind of the bug that a run has shown. -/
def Outcome.bugKind? (o : Outcome) : Option BugKind := o.bug.map (·.kind)

/-- The parts of an outcome fit together, for a strategy that is `fair` at the end and a program
with these `hot` monitors. -/
structure Outcome.Consistent (fair : Bool) (hot : List String) (o : Outcome) : Prop where
  divergence_iff : o.divergence.isSome = true ↔ o.bugKind? = some .divergence
  halted_of_bug : ∀ kind ∈ [BugKind.safety, .liveness, .divergence],
    o.bugKind? = some kind → o.ending = .halted
  none_of_stepBound : o.ending = .stepBound → o.bug = none
  atRest_iff : o.bugKind? = some .hotAtRest ↔ o.ending = .quiescent ∧ fair = true ∧ hot ≠ []

variable {p : σ} {ending : Ending} {s : Session τ}

theorem outcome_bug_of_ne (h : ending ≠ .quiescent) :
    (s.outcome S P p ending).bug = s.bug := by
  simp [Session.outcome, Session.checkRest, h]

/-- At rest the program is checked once more, if nothing else went wrong. -/
theorem outcome_bugKind_atRest (h : s.bug = none) :
    (s.outcome S P p .quiescent).bugKind? =
      if S.isFair s.strategy = true ∧ P.hotMonitors p ≠ [] then some .hotAtRest else none := by
  simp only [Outcome.bugKind?, Session.outcome, Session.checkRest, h]
  by_cases hrest : S.isFair s.strategy = true ∧ P.hotMonitors p ≠ []
  · simp [hrest, Session.recordBug, h]
  · rw [if_neg hrest]
    have hcheck : ¬ (S.isFair s.strategy && !(P.hotMonitors p).isEmpty) = true := by
      simpa using hrest
    simp [hcheck, h]

theorem consistent_of_halted (hs : s.Coherent) :
    (s.outcome S P p .halted).Consistent (S.isFair s.strategy) (P.hotMonitors p) := by
  have hkind : (s.outcome S P p .halted).bugKind? = s.bug.map (·.kind) :=
    congrArg _ (outcome_bug_of_ne (by decide))
  refine ⟨?_, fun _ _ _ => rfl, nofun, ?_⟩
  · rw [outcome_divergence, hkind]
    exact hs.divergence_iff
  · rw [hkind]
    exact ⟨fun hrest => absurd hrest hs.not_atRest, nofun⟩

theorem consistent_of_stepBound (hbug : s.bug = none) (hdivergence : s.divergence = none) :
    (s.outcome S P p .stepBound).Consistent (S.isFair s.strategy) (P.hotMonitors p) := by
  have hnone : (s.outcome S P p .stepBound).bug = none :=
    (outcome_bug_of_ne (by decide)).trans hbug
  refine ⟨?_, ?_, fun _ => hnone, ?_⟩
  · rw [outcome_divergence, hdivergence, Outcome.bugKind?, hnone]
    simp
  · intro kind _ hsome
    rw [Outcome.bugKind?, hnone] at hsome
    cases hsome
  · rw [Outcome.bugKind?, hnone]
    exact ⟨nofun, nofun⟩

theorem consistent_of_quiescent (hbug : s.bug = none) (hdivergence : s.divergence = none) :
    (s.outcome S P p .quiescent).Consistent (S.isFair s.strategy) (P.hotMonitors p) := by
  have hkind := outcome_bugKind_atRest (S := S) (P := P) (p := p) hbug
  refine ⟨?_, ?_, nofun, ?_⟩
  · rw [outcome_divergence, hdivergence, hkind]
    split <;> simp
  · intro kind hmem hsome
    rw [hkind] at hsome
    split at hsome
    · cases hsome
      simp at hmem
    · cases hsome
  · rw [hkind]
    constructor
    · intro hsome
      split at hsome
      · rename_i hhot
        exact ⟨rfl, hhot⟩
      · cases hsome
    · rintro ⟨-, hhot⟩
      rw [if_pos hhot]

theorem consistent_of_endsCoherent (h : Session.EndsCoherent (.ended ending p, s)) :
    (s.outcome S P p ending).Consistent (S.isFair s.strategy) (P.hotMonitors p) := by
  -- a run that has ended otherwise than by a halt has shown nothing up to there
  have hclean : ending ≠ .halted → s.bug = none ∧ s.divergence = none := fun hne =>
    h.coherent.clean (h.not_halted ending p rfl hne)
  cases ending with
  | halted => exact consistent_of_halted h.coherent
  | stepBound => exact consistent_of_stepBound (hclean nofun).1 (hclean nofun).2
  | quiescent => exact consistent_of_quiescent (hclean nofun).1 (hclean nofun).2

end Consistency

section Halted

variable {σ τ : Type} {S : Strategy τ} {P : Program σ}

/-- How a handler ends when all that it asks and checks is answered with the halt, and what it tells
until then. -/
def Handler.unheard : Handler σ → Return σ × List Notice
  | .finish p => (.finished p, [])
  | .abort p => (.aborted p, [])
  | .panic message => (.panicked message, [])
  | .ask _ next => (next none).unheard
  | .check _ _ next => (next false).unheard
  | .tell n next => (next.unheard.1, n :: next.unheard.2)

def Session.tellAll (notices : List Notice) (s : Session τ) : Session τ :=
  notices.foldl (fun s n => s.tell n) s

/-- Nothing has changed but what a program tells. -/
structure Session.OnlyTold (s t : Session τ) : Prop extends s.Framed t where
  bug : t.bug = s.bug
  halted : t.halted = s.halted

theorem Session.OnlyTold.tell (n : Notice) (s : Session τ) : s.OnlyTold (s.tell n) :=
  ⟨.tell n s, by cases n <;> rfl, tell_halted n s⟩

theorem Session.OnlyTold.trans {s t u : Session τ} (h : s.OnlyTold t) (h' : t.OnlyTold u) :
    s.OnlyTold u :=
  ⟨h.toFramed.trans h'.toFramed, h'.bug.trans h.bug, h'.halted.trans h.halted⟩

theorem Session.OnlyTold.tellAll (notices : List Notice) :
    ∀ s : Session τ, s.OnlyTold (s.tellAll notices) := by
  induction notices with
  | nil => exact fun s => ⟨.refl s, rfl, rfl⟩
  | cons n notices ih => exact fun s => (Session.OnlyTold.tell n s).trans (ih (s.tell n))

theorem check_of_halted {holds : Bool} {message : String} {s : Session τ} (h : s.halted = true) :
    s.check holds message = (false, s) := by
  simp [Session.check, h]

theorem run_of_halted (S : Strategy τ) (h : Handler σ) : ∀ {s : Session τ}, s.halted = true →
    h.run S s = (h.unheard.1, s.tellAll h.unheard.2) := by
  induction h with
  | finish p => exact fun _ => rfl
  | abort p => exact fun _ => rfl
  | panic message => exact fun _ => rfl
  | ask q next ih =>
    intro s hs
    rw [Handler.run, ask_of_halted hs]
    exact ih none hs
  | check holds message next ih =>
    intro s hs
    rw [Handler.run, check_of_halted hs]
    exact ih false hs
  | tell n next ih =>
    intro s hs
    rw [Handler.run, ih (by rw [Session.tell_halted]; exact hs)]
    rfl

/-- Where a run is left that no unit is scheduled in any more. -/
def Return.stop : Return σ → Stop σ
  | .finished p => .ended .halted p
  | .aborted p => .ended .halted p
  | .panicked message => .panicked message

theorem settle_halted (full : Session τ → Bool) (P : Program σ) (h : Handler σ) :
    ∀ {s : Session τ}, s.halted = true →
      P.settle full h s = .inr (h.unheard.1.stop, s.tellAll h.unheard.2) := by
  induction h with
  | finish p => exact fun hs => if_pos hs
  | abort p => exact fun _ => rfl
  | panic message => exact fun _ => rfl
  | ask q next ih =>
    intro s hs
    rw [Program.settle, if_pos hs]
    exact ih none hs
  | check holds message next ih =>
    intro s hs
    rw [Program.settle, check_of_halted hs]
    exact ih false hs
  | tell n next ih =>
    intro s hs
    rw [Program.settle, ih (by rw [Session.tell_halted]; exact hs)]
    rfl

/-- After a halt in session `s`, with `h` left of the handler: every question and check is answered
with the halt, what comes of `h` depends on no strategy, and no unit is scheduled after it, so that
an outcome shows what was recorded at the halt. -/
structure Session.Sealed (S : Strategy τ) (P : Program σ) (h : Handler σ) (s : Session τ) :
    Prop where
  ask : ∀ q, s.ask S q = (none, s)
  check : ∀ holds message, s.check holds message = (false, s)
  run : h.run S s = (h.unheard.1, s.tellAll h.unheard.2)
  told : s.OnlyTold (s.tellAll h.unheard.2)
  last : ∀ p, Session.round S P (p, s.tellAll h.unheard.2) =
    .inr (.ended .halted p, s.tellAll h.unheard.2)
  shown : ∀ p, ((s.tellAll h.unheard.2).outcome S P p .halted).bug = s.bug ∧
    ((s.tellAll h.unheard.2).outcome S P p .halted).trace = s.trace ∧
    ((s.tellAll h.unheard.2).outcome S P p .halted).divergence = s.divergence

theorem sealed_of_halted (S : Strategy τ) (P : Program σ) (h : Handler σ) {s : Session τ}
    (hs : s.halted = true) : s.Sealed S P h := by
  have htold := Session.OnlyTold.tellAll h.unheard.2 s
  refine ⟨fun _ => ask_of_halted hs, fun _ _ => check_of_halted hs, run_of_halted S h hs, htold,
    fun p => round_of_halted (htold.halted.trans hs), fun p => ⟨?_, ?_, ?_⟩⟩
  · exact (outcome_bug_of_ne (by decide)).trans htold.bug
  · rw [outcome_trace, htold.trace]
  · rw [outcome_divergence, htold.divergence]

end Halted

section Runs

variable {σ τ : Type}

/-- What a run reports fits together, and a halt is final. -/
theorem outcome_consistent (S : Strategy τ) (P : Program σ) :
    (∀ fuel start ending p s, Session.drive fuel S P start = some (.ended ending p, s) →
      P.run fuel S start = some (.ok (s.outcome S P p ending), s.strategy) ∧
        (s.outcome S P p ending).Consistent (S.isFair s.strategy) (P.hotMonitors p)) ∧
    ∀ (h : Handler σ) (s : Session τ), s.halted = true → s.Sealed S P h := by
  refine ⟨fun fuel start ending p s hdrive => ⟨?_, ?_⟩, fun h s hs => sealed_of_halted S P h hs⟩
  · rw [Program.run, hdrive]
    rfl
  · exact consistent_of_endsCoherent (coherent_drive hdrive)

/-- A program whose only unit goes on after a failed check as if nothing had happened. -/
def headstrong : Program Unit where
  fresh := ()
  start _ := .finish ()
  units _ := [.actor ⟨1⟩]
  current _ := none
  execute _ _ := .check false "broken" fun _ => .ask (.boolean 2) fun _ =>
    .check false "broken again" fun _ => .tell (.log "done") (.finish ())
  hotMonitors _ := ["progress"]
  label _ _ := "worker"

/-- The first failed check is the bug of the run, the question after it is not recorded, and the hot
monitor is not looked at. -/
theorem outcome_consistent_headstrong :
    ∃ s, Session.drive 2 Replay.strategy headstrong
        (.new (.ofList [.unit ⟨1⟩, .boolean true]) true) = some (.ended .halted (), s) ∧
      (s.outcome Replay.strategy headstrong () .halted).bug = some ⟨.safety, "broken"⟩ ∧
      (s.outcome Replay.strategy headstrong () .halted).trace = .ofList [.unit ⟨1⟩] ∧
      (s.outcome Replay.strategy headstrong () .halted).Consistent true ["progress"] ∧
      s.halted = true ∧ s.Sealed Replay.strategy headstrong (headstrong.execute ⟨1⟩ ()) := by
  obtain ⟨s, hdrive, hbug, htrace, hfair, hhalted⟩ : ∃ s, Session.drive 2 Replay.strategy headstrong
        (.new (.ofList [.unit ⟨1⟩, .boolean true]) true) = some (.ended .halted (), s) ∧
      (s.outcome Replay.strategy headstrong () .halted).bug = some ⟨.safety, "broken"⟩ ∧
      (s.outcome Replay.strategy headstrong () .halted).trace = .ofList [.unit ⟨1⟩] ∧
      Replay.strategy.isFair s.strategy = true ∧ s.halted = true :=
    ⟨_, rfl, rfl, rfl, rfl, rfl⟩
  have hconsistent := ((outcome_consistent Replay.strategy headstrong).1 _ _ _ _ _ hdrive).2
  rw [hfair] at hconsistent
  exact ⟨s, hdrive, hbug, htrace, hconsistent, hhalted,
    (outcome_consistent Replay.strategy headstrong).2 _ s hhalted⟩

end Runs
end Interleave
