import Interleave.Proofs.Liveness.Lasso
import Interleave.Proofs.Liveness.Retracing

/-!
# Interleave.Proofs.Liveness.Confirmation

Why a cycle that is entered is confirmed, if fingerprints can be trusted.

* `Pause.Enters`: at a request the check begins to repeat a cycle.
* `Pause.Revisits`: a later request finds the program where the cycle had it.
* `revisits_succ`: the reply recorded there is given again, and leads to the next such request.
* `cycle_confirmed`: so the cycle is never given up, and at the threshold it is reported.
-/

namespace Interleave

section Checks

variable {σ τ : Type} {S : Strategy τ} {Inv : τ → Prop} {P : Program σ} {threshold : Nat}

/-- A comparison does not give a chase up where the last state is on the cycle and no monitor of the
chase has turned cold. -/
theorem advance?_of_onCycle {trace : Trace} {o : Observer} {start checks last : Nat} {c : Chase}
    (h : c.Tracks threshold trace o start checks)
    (hlength : trace.length = start + c.cycle.length + checks) (hlast : trace.length = last + 1)
    (hvisit : ∀ state, o.snapshotAt? last = some state →
      c.cycle.visits state.fingerprint = true)
    (hwarm : ∀ name ∈ c.hot, (o.heatOf name).isCold = false) :
    c.advance? o last = some
      { c with temperature := c.temperature + 1, unchecked := max c.unchecked (last + 1) } := by
  have hnotCold : ¬ (c.hot.any fun name => (o.heatOf name).isCold) = true := by
    rw [List.any_eq_true]
    rintro ⟨name, hname, hcold⟩
    rw [hwarm name hname] at hcold
    cases hcold
  have hstays : ¬ c.leaves o last = true := by
    unfold Chase.leaves
    rw [List.any_eq_true]
    rintro ⟨i, hi, hleaves⟩
    obtain ⟨hle, hlt⟩ := List.mem_range'_1.1 hi
    have hlow := h.lt_unchecked
    cases hstate : o.snapshotAt? i with
    | none => rw [hstate] at hleaves; cases hleaves
    | some state =>
      rw [hstate] at hleaves
      have hvisits : c.cycle.visits state.fingerprint = true := by
        rcases Nat.lt_or_ge i (start + c.cycle.length) with hcycle | hafter
        · rw [Cycle.visits_iff,
            h.window.exists_state_iff fun other => other.fingerprint = state.fingerprint]
          exact ⟨i - start, state, by omega, by rwa [Nat.add_sub_cancel' (by omega)], rfl⟩
        · rcases Nat.lt_or_ge i last with hbefore | hnow
          · exact h.visited i state hafter (by omega) hstate
          · have hi : i = last := by omega
            subst hi
            exact hvisit state hstate
      simp [hvisits] at hleaves
  unfold Chase.advance?
  rw [if_neg hnotCold, if_neg hstays]

theorem sought_of_chase {d : Detector} {c : Chase} (h : d.chase = some c) (steps : Nat)
    (scene : Scene) : d.sought steps scene = d := by
  unfold Detector.sought
  split
  · rfl
  · split
    · rfl
    · dsimp only
      split
      · simp [Detector.seek, h]
      · rfl

/-- The detector of a request once a cycle has been looked for. -/
def Pause.sought (S : Strategy τ) (a : Pause σ (Watched τ)) : Detector :=
  a.session.strategy.sought S a.session.scene

/-- At a request the check begins to repeat a cycle. -/
def Pause.Enters (S : Strategy τ) (a : Pause σ (Watched τ)) (cycle : Cycle) : Prop :=
  a.session.strategy.detector.chase = none ∧
    ∃ c, (a.sought S).chase = some c ∧ c.cycle = cycle

theorem answer_of_found {a : Pause σ (Watched τ)} {v : Violation} {d : Detector} {o : Observer}
    (h : a.session.strategy.finding S a.session.scene = (some v, d, o)) :
    (a.answer (Watched.strategy S) P).result = .error (.liveness v) ∧
      (a.answer (Watched.strategy S) P).state.detector = d := by
  have hanswer := answer_cases (S := S) (P := P) a
  generalize a.answer (Watched.strategy S) P = answer at hanswer ⊢
  cases hanswer with
  | confirmed hfinding =>
    rw [h] at hfinding
    cases hfinding
    exact ⟨rfl, rfl⟩
  | followed hfinding =>
    rw [h] at hfinding
    cases hfinding
  | forwarded hfinding =>
    rw [h] at hfinding
    cases hfinding

theorem answer_of_fits {a : Pause σ (Watched τ)} {d : Detector} {o : Observer} {c : Chase}
    {step : CycleStep} {v : (a.place.request P).Reply}
    (h : a.session.strategy.finding S a.session.scene = (none, d, o))
    (hchase : d.chase = some c) (hstep : c.cycle[c.cursor]? = some step)
    (haccept : (a.place.request P).accept? step.choice = some v) :
    (a.answer (Watched.strategy S) P).result = .ok v ∧
      (a.answer (Watched.strategy S) P).state.detector.chase = some c.step := by
  have hanswer := answer_cases (S := S) (P := P) a
  generalize a.answer (Watched.strategy S) P = answer at hanswer ⊢
  cases hanswer with
  | confirmed hfinding =>
    rw [h] at hfinding
    cases hfinding
  | followed hfinding hchase' hstep' haccept' =>
    rw [h] at hfinding
    cases hfinding
    rw [hchase] at hchase'
    cases hchase'
    rw [hstep] at hstep'
    cases hstep'
    rw [haccept] at haccept'
    cases haccept'
    exact ⟨rfl, rfl⟩
  | forwarded hfinding hunfit =>
    rw [h] at hfinding
    cases hfinding
    rw [hunfit c step hchase hstep] at haccept
    cases haccept

end Checks

section Runs

variable {σ τ : Type} {S : Strategy τ} {Inv : τ → Prop} {P : Program σ} {start : Watched τ}

theorem get?_trace_pauseAt {j : Nat} {b : Pause σ (Watched τ)}
    (hb : P.pauseAt (Watched.strategy S) start j = some b) {v : (b.place.request P).Reply}
    (hv : (b.answer (Watched.strategy S) P).result = .ok v) (later : Nat) :
    ∀ a, P.pauseAt (Watched.strategy S) start (j + 1 + later) = some a →
      a.session.trace.get? j = some (b.place.choice P v) := by
  induction later with
  | zero =>
    intro a ha
    obtain ⟨b', hb', hturn⟩ := pauseAt_of_succ ha
    rw [hb] at hb'
    cases hb'
    obtain ⟨w, hw, _, htrace, _, _⟩ := turn_eq_inl hturn
    rw [hv] at hw
    cases hw
    rw [htrace, Trace.get?_push, if_pos (length_trace_pauseAt hb).symm]
  | succ later ih =>
    intro a ha
    obtain ⟨c, hc, hturn⟩ := pauseAt_of_succ ha
    obtain ⟨_, _, _, htrace, _, _⟩ := turn_eq_inl hturn
    have hlength : c.session.trace.length = j + 1 + later := length_trace_pauseAt hc
    have hearlier : ¬ j = c.session.trace.length := by omega
    rw [htrace, Trace.get?_push, if_neg hearlier]
    exact ih c hc

/-- The states of a cycle are those that the run had at its requests. -/
theorem state_of_window (hS : S.Conforms Inv) (hblind : S.IsBlind) (hstart : Inv start.base)
    {k last : Nat} {b d : Pause σ (Watched τ)} {cycle : Cycle} {first : Nat}
    (hd : P.pauseAt (Watched.strategy S) start last = some d)
    (hwindow : Window d.session.trace (d.answer (Watched.strategy S) P).observer first cycle)
    (hb : P.pauseAt (Watched.strategy S) start k = some b) (hlow : first < k)
    (hhigh : k ≤ first + cycle.length) (hle : k ≤ last) :
    ∃ step ∈ cycle, step.state = b.session.photo := by
  obtain ⟨i, rfl⟩ : ∃ i, k = first + i + 1 := ⟨k - first - 1, by omega⟩
  obtain ⟨choice, state, hc, _, hstate⟩ := hwindow.step i (by omega)
  obtain ⟨later, rfl⟩ := Nat.exists_eq_add_of_le hle
  exact ⟨_, List.mem_of_getElem? hc, photograph_pauseAt hS hblind hstart hb later d hd hstate⟩

/-- What is known at a request at which a cycle is in hand that was entered in this run. -/
theorem pursued (hS : S.Conforms Inv) (hblind : S.IsBlind) (hstart : Inv start.base)
    {n k : Nat} {a d : Pause σ (Watched τ)}
    (ha : P.pauseAt (Watched.strategy S) start n = some a)
    (hnone : a.session.strategy.detector.chase = none) (hk : n ≤ k)
    (hd : P.pauseAt (Watched.strategy S) start k = some d) {c : Chase}
    (hc : (d.sought S).chase = some c) :
    ∃ checks last o, k = last + 1 ∧ k = c.cycle.start + c.cycle.length + checks ∧
      c.Tracks start.detector.threshold d.session.trace o c.cycle.start checks ∧
      c.temperature < c.threshold ∧ (d.answer (Watched.strategy S) P).observer = o ∧
      Photographed d.session.observer o last d.session.photo ∧
      d.session.strategy.finding S d.session.scene =
        (((d.sought S).heatUp o last).1, ((d.sought S).heatUp o last).2, o) := by
  have hwatching := watching_pauseAt hS hblind hstart hd
  obtain ⟨later, rfl⟩ := Nat.exists_eq_add_of_le hk
  have htrack := onTrack_pauseAt hS hblind hstart ha hnone later d hd
  have hlength := length_trace_pauseAt hd
  have hobserver := answer_observer (P := P) hblind d
  have hlooks := looks hwatching
  unfold Pause.sought at hc ⊢
  generalize d.session.strategy.sought _ _ = sought,
    d.session.strategy.finding _ _ = result at hlooks hobserver hc ⊢
  cases hlooks with
  | early hearly =>
    obtain ⟨first, checks, htracks, hcount, _⟩ := htrack c hc
    have hlooked := htracks.looked hwatching
    omega
  | @looked last o hlast hlooked hphoto =>
    obtain ⟨first, checks, htracks, hcount, hcool⟩ :=
      judged_onTrack hwatching htrack hlast hphoto hc
    have hfirst := htracks.window.start_eq
    subst hfirst
    exact ⟨checks, last, o, by omega, by omega, htracks, hcool, hobserver, hphoto, rfl⟩

/-- The `i`-th request after a cycle was entered finds the program where the cycle had it. -/
structure Pause.Revisits (S : Strategy τ) (P : Program σ) (start : Watched τ) (cycle : Cycle)
    (i : Nat) (d : Pause σ (Watched τ)) : Prop where
  pauseAt : P.pauseAt (Watched.strategy S) start (cycle.start + cycle.length + i) = some d
  chase : ∃ c, (d.sought S).chase = some c ∧ c.cycle = cycle
  original : ∃ b, P.pauseAt (Watched.strategy S) start (cycle.start + i % cycle.length) = some b ∧
    d.place = b.place ∧ b.session.Retraces d.session

/-- How hot a cycle may get under a threshold. -/
def Cycle.limit (threshold : Nat) (cycle : Cycle) : Nat :=
  if threshold = 0 then Chase.heatPerStep * cycle.length else threshold

/-- In the cycle the request was answered, and the reply is on record. -/
theorem original_reply (hS : S.Conforms Inv) (hblind : S.IsBlind) (hstart : Inv start.base)
    {cycle : Cycle} {a : Pause σ (Watched τ)} (ha : a.Revisits S P start cycle 0) {i : Nat}
    {d : Pause σ (Watched τ)} (hd : d.Revisits S P start cycle i) {o : Observer}
    (hwindow : Window d.session.trace o cycle.start cycle) :
    ∃ (b b' : Pause σ (Watched τ)) (step : CycleStep) (v : (b.place.request P).Reply),
      d.place = b.place ∧ b.session.Retraces d.session ∧
      b.turn (Watched.strategy S) P = .inl b' ∧
      P.pauseAt (Watched.strategy S) start (cycle.start + i % cycle.length + 1) = some b' ∧
      (b.answer (Watched.strategy S) P).result = .ok v ∧ (b.place.request P).Admits v ∧
      cycle[i % cycle.length]? = some step ∧ step.choice = b.place.choice P v := by
  have hlt := Nat.mod_lt i hwindow.length_pos
  have hle := Nat.mod_le i cycle.length
  obtain ⟨b, hb, hplace, hbd⟩ := hd.original
  obtain ⟨b', hb'⟩ := pauseAt_of_le (show cycle.start + i % cycle.length + 1 ≤ _ by omega)
    ha.pauseAt
  obtain ⟨b₂, hb₂, hturn⟩ := pauseAt_of_succ hb'
  rw [hb] at hb₂
  cases hb₂
  obtain ⟨v, hv, _⟩ := turn_eq_inl hturn
  obtain ⟨choice, state, hstep, hchoice, _⟩ := hwindow.step _ hlt
  have hrecorded := get?_trace_pauseAt hb hv (cycle.length + i - i % cycle.length - 1) d (by
    rw [← hd.pauseAt]
    congr 1
    omega)
  rw [hrecorded] at hchoice
  cases hchoice
  have hserved := (watched_conforms hS).served (b.place.request P) b.session.scene
    b.session.strategy (watching_pauseAt hS hblind hstart hb).base
  rw [show ((Watched.strategy S).answer (b.place.request P) b.session.scene
    b.session.strategy).result = .ok v from hv] at hserved
  exact ⟨b, b', _, v, hplace, hbd, hturn, hb', hv, hserved.admits, hstep, rfl⟩

/-- After the end of the cycle its beginning is met again. -/
theorem original_succ {cycle : Cycle} {a : Pause σ (Watched τ)}
    (ha : a.Revisits S P start cycle 0) {i : Nat} {b : Pause σ (Watched τ)}
    (hpos : 0 < cycle.length)
    (hb : P.pauseAt (Watched.strategy S) start (cycle.start + i % cycle.length + 1) = some b) :
    ∃ e, P.pauseAt (Watched.strategy S) start (cycle.start + (i + 1) % cycle.length) = some e ∧
      b.place = e.place ∧ e.session.Retraces b.session := by
  have hlt := Nat.mod_lt i hpos
  have hmod : (i + 1) % cycle.length = (i % cycle.length + 1) % cycle.length :=
    (Nat.mod_add_mod _ _ _).symm
  rw [hmod]
  rcases Nat.lt_or_ge (i % cycle.length + 1) cycle.length with hwithin | haround
  · rw [Nat.mod_eq_of_lt hwithin]
    exact ⟨b, hb, rfl, .refl _⟩
  · have hend : i % cycle.length + 1 = cycle.length := by omega
    have hab : a = b := by
      have hsame := ha.pauseAt
      rw [Nat.add_zero, ← hend, ← Nat.add_assoc, hb] at hsame
      exact (Option.some.inj hsame).symm
    subst hab
    obtain ⟨e, he, hplace, hretraces⟩ := ha.original
    rw [hend, Nat.mod_self]
    exact ⟨e, by rw [← he, Nat.zero_mod], hplace, hretraces⟩

section Revisiting

variable (hS : S.Conforms Inv) (hblind : S.IsBlind) (hstart : Inv start.base) {cycle : Cycle}
  {a : Pause σ (Watched τ)} (hentry : a.session.strategy.detector.chase = none)
  (ha : a.Revisits S P start cycle 0)

include hS hblind hstart hentry ha

/-- The state at such a request is one of the cycle. -/
theorem revisits_state {i : Nat} {d : Pause σ (Watched τ)} (hd : d.Revisits S P start cycle i) :
    ∃ step ∈ cycle, step.state.fingerprint = d.session.photo.fingerprint ∧
      ∀ name, step.state.heatOf name = d.session.observer.heatOf name := by
  obtain ⟨c, hc, rfl⟩ := ha.chase
  obtain ⟨checks, last, o, _, _, htracks, _, hanswer, _, _⟩ :=
    pursued hS hblind hstart ha.pauseAt hentry (Nat.le_refl _) ha.pauseAt hc
  rw [← hanswer] at htracks
  have hpos := htracks.window.length_pos
  obtain ⟨b, hb, _, hbd⟩ := hd.original
  have hlt := Nat.mod_lt i hpos
  -- the state before the first step of the cycle is not in it, but that after the last step is
  obtain ⟨k, e, he, hlow, hhigh, hed⟩ : ∃ k e, P.pauseAt (Watched.strategy S) start k = some e ∧
      c.cycle.start < k ∧ k ≤ c.cycle.start + c.cycle.length ∧
      e.session.Retraces d.session := by
    rcases Nat.eq_zero_or_pos (i % c.cycle.length) with hzero | hlater
    · obtain ⟨b', hb', _, hba⟩ := ha.original
      rw [hzero] at hb
      rw [Nat.zero_mod, hb] at hb'
      cases hb'
      exact ⟨_, a, ha.pauseAt, by omega, by omega, hba.symm.trans hbd⟩
    · exact ⟨_, b, hb, by omega, by omega, hbd⟩
  obtain ⟨step, hstep, hstate⟩ := state_of_window hS hblind hstart ha.pauseAt htracks.window he hlow
    hhigh (by omega)
  refine ⟨step, hstep, ?_, fun name => ?_⟩
  · rw [hstate, hed.fingerprint]
  · rw [hstate, Session.heatOf_photo, hed.heatOf name]

/-- So the check goes on with the cycle, or reports it at its limit. -/
theorem revisits_finding {i : Nat} {d : Pause σ (Watched τ)} (hd : d.Revisits S P start cycle i) :
    (i + 1 < cycle.limit start.detector.threshold ∧ ∃ found o c,
      d.session.strategy.finding S d.session.scene = (none, found, o) ∧
      found.chase = some c ∧ c.cycle = cycle ∧ c.cursor = i % cycle.length ∧
      Window d.session.trace o cycle.start cycle) ∨
    (i + 1 = cycle.limit start.detector.threshold ∧ cycle.hotMonitors ≠ [] ∧ ∃ found o,
      d.session.strategy.finding S d.session.scene =
        (some ⟨cycle.hotMonitors, i + 1, cycle.length⟩, found, o) ∧ found.chase = none) := by
  obtain ⟨step, hstep, hfingerprint, hheat⟩ := revisits_state hS hblind hstart hentry ha hd
  obtain ⟨c, hc, rfl⟩ := hd.chase
  obtain ⟨checks, last, o, hlast, hcount, htracks, hcool, _, hphoto, hfinding⟩ :=
    pursued hS hblind hstart ha.pauseAt hentry (by omega) hd.pauseAt hc
  obtain rfl : i = checks := by omega
  have hlength := length_trace_pauseAt hd.pauseAt
  have htemperature : c.temperature = i := htracks.temperature_eq
  have hlimit : c.threshold = c.cycle.limit start.detector.threshold := htracks.threshold_eq
  have hmem : c.cycle ≠ [] := List.ne_nil_of_mem hstep
  have hadvance := advance?_of_onCycle htracks (by omega) (show _ = last + 1 by omega)
    (fun state hstate => by
      rw [hphoto.snapshotAt?, if_pos rfl] at hstate
      cases hstate
      exact Cycle.visits_iff.2 ⟨step, hstep, hfingerprint⟩)
    (fun name hname => by
      rw [htracks.hot_eq, Cycle.mem_hotMonitors_iff hmem] at hname
      have hhot := hname step hstep
      unfold Observer.heatOf
      rw [hphoto.observed]
      change (d.session.observer.heatOf name).isCold = false
      rw [← hheat name]
      exact Heat.isCold_of_isHot hhot)
  unfold Detector.heatUp at hfinding
  rw [hc, Option.bind_some, hadvance] at hfinding
  dsimp only at hfinding
  rcases Nat.lt_or_ge (c.temperature + 1) c.threshold with hbelow | hreached
  · rw [if_pos hbelow] at hfinding
    refine .inl ⟨by omega, _, o, _, hfinding, rfl, rfl, ?_, htracks.window⟩
    show c.cursor = i % c.cycle.length
    rw [htracks.cursor_eq]
    congr 1
    omega
  · rw [if_neg (by omega)] at hfinding
    refine .inr ⟨by omega, by rw [← htracks.hot_eq]; exact htracks.hot_ne,
      { d.sought S with chase := none }, o, ?_, rfl⟩
    rw [hfinding, Chase.violation, htracks.hot_eq, htemperature]

/-- The reply that the cycle had is given again, and the run goes on as it did. -/
theorem revisits_succ {i : Nat} {d : Pause σ (Watched τ)} (hd : d.Revisits S P start cycle i)
    (hbelow : i + 1 < cycle.limit start.detector.threshold) :
    ∃ step v, cycle[i % cycle.length]? = some step ∧
      (d.answer (Watched.strategy S) P).result = .ok v ∧ d.place.choice P v = step.choice ∧
      (∃ c, (d.answer (Watched.strategy S) P).state.detector.chase = some c ∧ c.cycle = cycle) ∧
      ∃ d' : Pause σ (Watched τ), d'.Revisits S P start cycle (i + 1) := by
  rcases revisits_finding hS hblind hstart hentry ha hd with ⟨_, hfound⟩ | ⟨hreached, _⟩
  · obtain ⟨found, o, c, hfinding, hchase, hcycle, hcursor, hwindow⟩ := hfound
    obtain ⟨b, b', step, v, hplace, hbd, hturn, hb', hv, hadmits, hstep, hchoice⟩ :=
      original_reply hS hblind hstart ha hd hwindow
    obtain ⟨x, s⟩ := b
    obtain ⟨y, t⟩ := d
    cases hplace
    obtain ⟨hresult, hstate⟩ := answer_of_fits hfinding hchase
      (by rw [hcycle, hcursor]; exact hstep)
      (by rw [hchoice]; exact accept?_choice x v hadmits)
    have hopen : (Watched.strategy S).atBound
        ((Pause.mk x t).answer (Watched.strategy S) P).state = false := by
      show (((Pause.mk x t).answer (Watched.strategy S) P).state.detector.chase.isNone && _) = false
      rw [hstate]
      rfl
    obtain ⟨d', hturn', hplace', hbd'⟩ := retraces_turn hbd
      ((watched_conforms hS).observed _ _ _) ((watched_conforms hS).observed _ _ _) hv hresult hopen
      hturn
    obtain ⟨_, _, hstrategy, _⟩ := turn_eq_inl hturn'
    have hchase' : d'.session.strategy.detector.chase = some c.step := by
      rw [hstrategy]
      exact hstate
    obtain ⟨e, he, hb'e, heb'⟩ := original_succ ha hwindow.length_pos hb'
    refine ⟨step, v, hstep, hresult, hchoice.symm, ⟨_, hstate, hcycle⟩, d',
      pauseAt_succ hd.pauseAt hturn', ⟨c.step, ?_, hcycle⟩, e, he, hplace'.trans hb'e,
      heb'.trans hbd'⟩
    unfold Pause.sought Watched.sought
    rw [sought_of_chase hchase']
    exact hchase'
  · omega

theorem revisits_last {i : Nat} {d : Pause σ (Watched τ)} (hd : d.Revisits S P start cycle i)
    (hlast : i + 1 = cycle.limit start.detector.threshold) :
    (d.answer (Watched.strategy S) P).result =
        .error (.liveness ⟨cycle.hotMonitors, i + 1, cycle.length⟩) ∧
      (d.answer (Watched.strategy S) P).state.detector.chase = none ∧ cycle.hotMonitors ≠ [] := by
  rcases revisits_finding hS hblind hstart hentry ha hd with ⟨hbelow, _⟩ | ⟨_, hhot, hfound⟩
  · omega
  · obtain ⟨found, o, hfinding, hchase⟩ := hfound
    obtain ⟨hresult, hdetector⟩ := answer_of_found (P := P) hfinding
    exact ⟨hresult, by rw [hdetector]; exact hchase, hhot⟩

end Revisiting

theorem temperature_of_enters {a : Pause σ (Watched τ)} {c : Chase}
    (hnone : a.session.strategy.detector.chase = none) (hc : (a.sought S).chase = some c) :
    c.temperature = 0 := by
  unfold Pause.sought Watched.sought Detector.sought at hc
  split at hc
  · rw [hnone] at hc
    cases hc
  · split at hc
    · rw [hnone] at hc
      cases hc
    · dsimp only at hc
      split at hc
      · obtain ⟨cycle, _, _, _, _, _, rfl⟩ := seek_spec hnone hc
        rfl
      · rw [hnone] at hc
        cases hc

/-- Where fingerprints can be trusted, a cycle that is entered ends where it began. -/
theorem revisits_zero (hS : S.Conforms Inv) (hblind : S.IsBlind) (hstart : Inv start.base)
    (hfaithful : P.Faithful (Watched.strategy S) start Pause.SameTold) {n : Nat}
    {a : Pause σ (Watched τ)} (ha : P.pauseAt (Watched.strategy S) start n = some a) {cycle : Cycle}
    (henters : a.Enters S cycle) :
    n = cycle.start + cycle.length ∧ a.Revisits S P start cycle 0 ∧
      Window a.session.trace (a.answer (Watched.strategy S) P).observer cycle.start cycle := by
  obtain ⟨hnone, c, hc, rfl⟩ := henters
  obtain ⟨checks, last, o, hlast, hcount, htracks, _, hanswer, hphoto, _⟩ :=
    pursued hS hblind hstart ha hnone (Nat.le_refl n) ha hc
  have hzero : checks = 0 := htracks.temperature_eq.symm.trans (temperature_of_enters hnone hc)
  subst hzero
  rw [← hanswer] at htracks hphoto
  have hpos := htracks.window.start_pos
  obtain ⟨before, after, hbefore, hafter, heq⟩ := htracks.window.closes
  obtain ⟨first, hfirst⟩ : ∃ first, c.cycle.start = first + 1 := ⟨c.cycle.start - 1, by omega⟩
  obtain ⟨e, he⟩ := pauseAt_of_le (show first + 1 ≤ n by omega) ha
  have hstate := captured?_of_snapshotAt? hS hblind hstart he c.cycle.length a (by
    rw [← ha]
    congr 1
    omega) (by rw [← hbefore, hfirst]; rfl)
  have hstate' : a.captured? (Watched.strategy S) P = some after := by
    rw [← hafter, Pause.captured?, length_trace_pauseAt ha]
    congr 1
    omega
  have hlook := look_of_captured? hblind (watching_pauseAt hS hblind hstart he) hstate
  have hlook' := look_of_captured? hblind (watching_pauseAt hS hblind hstart ha) hstate'
  have hsame := hfaithful _ _ e a before after he ha hstate hstate' heq
  have htallied : ∀ k b, P.pauseAt (Watched.strategy S) start k = some b →
      b.session.observer.observed.Tallied Element.digest := fun k b hb =>
    observed_pauseAt Observed.tallied_empty (fun n o h => Observed.tallied_note h n)
      (watched_conforms hS).observed hb
  refine ⟨hcount, ⟨?_, ⟨c, hc, rfl⟩, e, ?_, hsame.place, ?_⟩, htracks.window⟩
  · rw [Nat.add_zero, ← ha]
    congr 1
    exact hcount.symm
  · rw [Nat.zero_mod, Nat.add_zero, hfirst]
    exact he
  · exact retraces_of_sameTold hsame (htallied _ e he) (htallied n a ha) (pauseAt_open he)
      (pauseAt_open ha) (by rw [← hlook, ← hlook', heq])

/-- From its `n`-th request on a run repeats a cycle until the limit is reached, where the cycle is
reported and dropped. -/
structure Program.Confirms (S : Strategy τ) (P : Program σ) (start : Watched τ) (n : Nat)
    (cycle : Cycle) (limit : Nat) : Prop where
  repeats : ∀ i, i + 1 < limit → ∃ a step v,
    P.pauseAt (Watched.strategy S) start (n + i) = some a ∧
    cycle[i % cycle.length]? = some step ∧
    (a.answer (Watched.strategy S) P).result = .ok v ∧ a.place.choice P v = step.choice ∧
    ∃ c, (a.answer (Watched.strategy S) P).state.detector.chase = some c ∧ c.cycle = cycle
  reports : ∃ a v, P.pauseAt (Watched.strategy S) start (n + (limit - 1)) = some a ∧
    (a.answer (Watched.strategy S) P).result = .error (.liveness v) ∧
    (a.answer (Watched.strategy S) P).state.detector.chase = none ∧
    v.temperature = limit ∧ v.cycleLength = cycle.length ∧ v.monitors ≠ [] ∧
    ∀ name, name ∈ v.monitors ↔ ∀ step ∈ cycle, (step.state.heatOf name).isHot = true
  ends : P.pauseAt (Watched.strategy S) start (n + limit) = none

theorem confirms_of_enters (hS : S.Conforms Inv) (hblind : S.IsBlind) (hstart : Inv start.base)
    (hfaithful : P.Faithful (Watched.strategy S) start Pause.SameTold) {n : Nat}
    {a : Pause σ (Watched τ)} (ha : P.pauseAt (Watched.strategy S) start n = some a) {cycle : Cycle}
    (henters : a.Enters S cycle) :
    P.Confirms S start n cycle (cycle.limit start.detector.threshold) := by
  obtain ⟨hn, hzero, hwindow⟩ := revisits_zero hS hblind hstart hfaithful ha henters
  have hentry := henters.1
  have hpos := hwindow.length_pos
  have hlimit : 0 < cycle.limit start.detector.threshold := by
    unfold Cycle.limit
    split
    · exact Nat.mul_pos (by decide) hpos
    · omega
  have hrevisits : ∀ i, i < cycle.limit start.detector.threshold →
      ∃ d : Pause σ (Watched τ), d.Revisits S P start cycle i := by
    intro i
    induction i with
    | zero => exact fun _ => ⟨a, hzero⟩
    | succ i ih =>
      intro hi
      obtain ⟨d, hd⟩ := ih (by omega)
      obtain ⟨_, _, _, _, _, _, hnext⟩ := revisits_succ hS hblind hstart hentry hzero hd hi
      exact hnext
  obtain ⟨last, hlast⟩ : ∃ last, last + 1 = cycle.limit start.detector.threshold :=
    ⟨cycle.limit start.detector.threshold - 1, by omega⟩
  obtain ⟨d, hd⟩ := hrevisits last (by omega)
  obtain ⟨hresult, hdropped, hhot⟩ := revisits_last hS hblind hstart hentry hzero hd hlast
  have hpause := hd.pauseAt
  rw [← hn] at hpause
  have hne : cycle ≠ [] := List.ne_nil_of_length_pos hpos
  refine ⟨fun i hi => ?_, ?_, ?_⟩
  · obtain ⟨e, he⟩ := hrevisits i (by omega)
    obtain ⟨step, v, hstep, hv, hchoice, hkept, _⟩ :=
      revisits_succ hS hblind hstart hentry hzero he hi
    exact ⟨e, step, v, by rw [hn]; exact he.pauseAt, hstep, hv, hchoice, hkept⟩
  · refine ⟨d, _, ?_, hresult, hdropped, hlast, rfl, hhot, fun name => ?_⟩
    · rw [← hlast, Nat.add_sub_cancel]
      exact hpause
    · exact Cycle.mem_hotMonitors_iff hne
  · rw [← hlast, ← Nat.add_assoc]
    exact pauseAt_of_error hpause hresult

end Runs

section Ticking

variable {τ : Type} {S : Strategy τ} {first each : List Notice}

theorem settle_tellAll {full : Session τ → Bool} {P : Program Unit} (notices : List Notice) :
    ∀ (s : Session τ) (a : Pause Unit τ),
      P.settle full (.tellAll notices (.finish ())) s = .inl a →
      a.place = .scheduling () ∧ a.session.offered = P.units () ∧
        a.session.observer.observed =
          notices.foldl (Observed.note Element.digest) s.observer.observed := by
  induction notices with
  | nil =>
    intro s a ha
    simp only [Handler.tellAll, List.foldr_nil, Program.settle, Program.offer,
      Program.schedule] at ha
    repeat' split at ha
    all_goals cases ha
    exact ⟨rfl, rfl, rfl⟩
  | cons n notices ih =>
    intro s a ha
    obtain ⟨hplace, hoffered, hobserved⟩ := ih (s.tell n) a ha
    rw [Session.tell_observed] at hobserved
    exact ⟨hplace, hoffered, hobserved⟩

/-- A ticking program waits between two units only, and with what it has told until then. -/
theorem ticking_pauseAt {Q : Observed → Prop}
    (hfirst : Q (first.foldl (Observed.note Element.digest) .empty))
    (heach : ∀ o, Q o → Q (each.foldl (Observed.note Element.digest) o))
    (hS : ∀ r scene s, (S.answer r scene s).observer.observed = scene.observer.observed)
    {start : τ} {n : Nat} {a : Pause Unit τ} (h : (ticking first each).pauseAt S start n = some a) :
    a.place = .scheduling () ∧ a.session.offered = (ticking first each).units () ∧
      Q a.session.observer.observed := by
  refine pauseAt_induction (Q := fun a => a.place = .scheduling () ∧
    a.session.offered = (ticking first each).units () ∧ Q a.session.observer.observed)
    (fun a ha => ?_) (fun a b ha hab => ?_) n a h
  · obtain ⟨hplace, hoffered, hobserved⟩ := settle_tellAll first (.new start) a ha
    exact ⟨hplace, hoffered, by rw [hobserved]; exact hfirst⟩
  · obtain ⟨v, hresult, _⟩ := turn_eq_inl hab
    obtain ⟨x, s⟩ := a
    obtain ⟨hx, _, hs⟩ := ha
    cases hx
    unfold Pause.turn at hab
    rw [hresult, resume_ok] at hab
    obtain ⟨hplace, hoffered, hobserved⟩ := settle_tellAll each _ b hab
    rw [Session.record_observer] at hobserved
    refine ⟨hplace, hoffered, ?_⟩
    rw [hobserved]
    refine heach _ ?_
    show Q (S.answer _ _ _).observer.observed
    rw [hS]
    exact hs

end Ticking

/-- A cycle that is entered is confirmed: where equal fingerprints mean that the program is in the
same state and has told the same, the run repeats the cycle up to the threshold, where it is
reported. -/
theorem cycle_confirmed {σ : Type} {P : Program σ} {p : Plan} (hp : p.IsBase)
    {config : Configuration} {drawn : UInt64} {start : (config.watching drawn p).State}
    (hstart : (config.watching drawn p).strategy.Reaches (config.watching drawn p).start start)
    (hfaithful : P.Faithful (config.watching drawn p).strategy start Pause.SameTold) {n : Nat}
    {a : Pause σ (config.watching drawn p).State}
    (ha : P.pauseAt (config.watching drawn p).strategy start n = some a) {cycle : Cycle}
    (henters : a.Enters p.strategy cycle) :
    Window a.session.trace (a.answer (config.watching drawn p).strategy P).observer cycle.start
        cycle ∧
      n = cycle.start + cycle.length ∧
      P.Confirms p.strategy start n cycle (cycle.limit config.temperatureThreshold.toNat) := by
  obtain ⟨Inv, hS, hfresh⟩ := p.conforms hp.isComposed
  have hblind := isBlind_of_isBase hp
  have hbase : Inv start.base := (watched_conforms hS).of_reaches hfresh hstart
  have hthreshold : start.detector.threshold = config.temperatureThreshold.toNat :=
    (reaches_settings hstart).2
  obtain ⟨hn, _, hwindow⟩ := revisits_zero hS hblind hbase hfaithful ha henters
  have hconfirms := confirms_of_enters hS hblind hbase hfaithful ha henters
  rw [hthreshold] at hconfirms
  exact ⟨hwindow, hn, hconfirms⟩

theorem hotTwice_observed (r : Request) (scene : Scene) (s : hotTwicePlan.State) :
    (hotTwicePlan.strategy.answer r scene s).observer.observed = scene.observer.observed :=
  (watched_conforms depthFirst_conforms).observed r scene s

theorem exists_enters {σ τ : Type} {S : Strategy τ} {a : Pause σ (Watched τ)}
    (h : (a.session.strategy.detector.chase.isNone && (a.sought S).chase.isSome) = true) :
    ∃ cycle, a.Enters S cycle := by
  rw [Bool.and_eq_true, Option.isNone_iff_eq_none, Option.isSome_iff_exists] at h
  obtain ⟨hnone, c, hc⟩ := h
  exact ⟨c.cycle, hnone, c, hc, rfl⟩

theorem idleWorker_faithful :
    idleWorker.Faithful hotTwicePlan.strategy hotTwicePlan.start Pause.SameTold := by
  have hpause : ∀ n a, idleWorker.pauseAt hotTwicePlan.strategy hotTwicePlan.start n = some a →
      a.place = .scheduling () ∧ a.session.offered = idleWorker.units () ∧
        a.session.observer.observed =
          Observed.empty.note Element.digest (.monitor "progress" "Waiting" .hot) :=
    fun n a h => ticking_pauseAt (Q := fun o => o = _) rfl (fun _ ho => by exact ho)
      hotTwice_observed h
  intro m n a b _ _ ha hb _ _ _
  obtain ⟨hplace, hoffered, hobserved⟩ := hpause m a ha
  obtain ⟨hplace', hoffered', hobserved'⟩ := hpause n b hb
  refine ⟨⟨by rw [hplace, hplace'], by rw [hobserved, hobserved'], fun u => ?_⟩,
    by rw [hobserved, hobserved']⟩
  rw [hoffered, hoffered']

theorem cycle_confirmed_idleWorker :
    ∃ a cycle, idleWorker.pauseAt hotTwicePlan.strategy hotTwicePlan.start 2 = some a ∧
      a.Enters DepthFirst.strategy cycle ∧
      idleWorker.Confirms DepthFirst.strategy hotTwicePlan.start 2 cycle 2 := by
  obtain ⟨a, ha, htest⟩ := (Option.any_eq_true _ _).1
    (show (idleWorker.pauseAt hotTwicePlan.strategy hotTwicePlan.start 2).any (fun a =>
      a.session.strategy.detector.chase.isNone && (a.sought DepthFirst.strategy).chase.isSome) =
      true by decide +kernel)
  obtain ⟨cycle, henters⟩ := exists_enters htest
  have hconfirmed := cycle_confirmed (p := .depthFirst 5) trivial
    .start idleWorker_faithful ha henters
  exact ⟨a, cycle, ha, henters, hconfirmed.2.2⟩

/-- A machine is told to be in a state three times over, and to leave it whenever it runs. -/
def descent : Program Unit :=
  ticking
    [.enter ⟨1⟩ "A", .enter ⟨1⟩ "A", .enter ⟨1⟩ "A", .monitor "progress" "Waiting" .hot]
    [.exit ⟨1⟩ "A"]

/-- A fingerprint holds the top of the state stack only. While the stack is taken down, the program
is always in the same state and makes the same request, and yet the cycle is given up when the stack
is empty. -/
theorem descent_gives_up :
    descent.Faithful hotTwicePlan.strategy hotTwicePlan.start Pause.SameState ∧
      ∃ a cycle, descent.pauseAt hotTwicePlan.strategy hotTwicePlan.start 2 = some a ∧
        a.Enters DepthFirst.strategy cycle ∧
        ¬ descent.Confirms DepthFirst.strategy hotTwicePlan.start 2 cycle
          (cycle.limit hotTwice.temperatureThreshold.toNat) := by
  constructor
  · have hpause : ∀ n a, descent.pauseAt hotTwicePlan.strategy hotTwicePlan.start n = some a →
        a.place = .scheduling () ∧ a.session.offered = descent.units () ∧
          a.session.observer.observed.toldMonitors =
            (Observed.empty.note Element.digest
              (.monitor "progress" "Waiting" .hot)).toldMonitors :=
      fun n a h => ticking_pauseAt (Q := fun o => o.toldMonitors =
          (Observed.empty.note Element.digest (.monitor "progress" "Waiting" .hot)).toldMonitors)
        rfl (fun _ ho => by exact ho) hotTwice_observed h
    intro m n a b _ _ ha hb _ _ _
    obtain ⟨hplace, hoffered, hobserved⟩ := hpause m a ha
    obtain ⟨hplace', hoffered', hobserved'⟩ := hpause n b hb
    refine ⟨by rw [hplace, hplace'], by rw [hobserved, hobserved'], fun u => ?_⟩
    rw [hoffered, hoffered']
  · obtain ⟨a, ha, htest⟩ := (Option.any_eq_true _ _).1
      (show (descent.pauseAt hotTwicePlan.strategy hotTwicePlan.start 2).any (fun a =>
        a.session.strategy.detector.chase.isNone && (a.sought DepthFirst.strategy).chase.isSome) =
        true by decide +kernel)
    obtain ⟨cycle, henters⟩ := exists_enters htest
    refine ⟨a, cycle, ha, henters, fun hconfirms => ?_⟩
    obtain ⟨b, v, hb, hv, _⟩ := hconfirms.reports
    have hnone : (descent.pauseAt hotTwicePlan.strategy hotTwicePlan.start 3).bind
        (·.reported? hotTwicePlan.strategy descent) = none := by decide +kernel
    have hsome : (descent.pauseAt hotTwicePlan.strategy hotTwicePlan.start 3).bind
        (·.reported? hotTwicePlan.strategy descent) = some v :=
      Option.bind_eq_some_iff.2 ⟨b, hb, Pause.reported?_eq_some_iff.2 hv⟩
    rw [hnone] at hsome
    cases hsome

end Interleave
