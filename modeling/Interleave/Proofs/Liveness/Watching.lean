import Interleave.Proofs.Conformance.Composed
import Interleave.Proofs.Pause.Simulation
import Interleave.Proofs.State.Captures

/-!
# Interleave.Proofs.Liveness.Watching

The liveness check along a run: which states it has photographed, and what it does before a request.

* `Looks`: before a request the check does nothing yet, or photographs the last step and judges.
* `Session.Watching`: the states of all steps are known, from the first one that is looked at on.
* `watching_pauseAt`: this holds at every pause of a run.
-/

namespace Interleave

/-- The photograph that would be taken of a session now. -/
def Session.photo {τ : Type} (s : Session τ) : Snapshot :=
  s.observer.look Element.digest s.offered

theorem heatOf_look (o : Observer) (candidates : List Candidate) (name : String) :
    (o.look Element.digest candidates).heatOf name = o.heatOf name := by
  simp [Observer.look, Snapshot.heatOf, Table.get?_mapValues, Observer.heatOf, Observed.heatOf]

@[simp] theorem Session.heatOf_photo {τ : Type} (s : Session τ) (name : String) :
    s.photo.heatOf name = s.observer.heatOf name :=
  heatOf_look s.observer s.offered name

namespace Detector

/-- What is judged after the photograph of a step: a cycle is looked for where the state repeats. -/
def judged (d : Detector) (scene : Scene) (observer : Observer) (fingerprint : UInt64) : Detector :=
  if (observer.sighting fingerprint).repeated then d.seek { scene with observer } fingerprint else d

/-- The detector of a request once a cycle has been looked for. -/
def sought (steps : Nat) (scene : Scene) (d : Detector) : Detector :=
  match scene.trace.last? with
  | none => d
  | some (last, _) =>
    if steps < d.safetyPrefix then d
    else
      let (sighting, observer) := scene.observer.capture Element.digest last scene.units
      if sighting.repeated then d.seek { scene with observer } sighting.fingerprint else d

end Detector

/-- The detector of a watched strategy once a cycle has been looked for. -/
def Watched.sought {τ : Type} (S : Strategy τ) (scene : Scene) (s : Watched τ) : Detector :=
  s.detector.sought (S.steps s.base + s.detector.replayed) scene

section Runs

variable {σ τ : Type} {S : Strategy τ} {Inv : τ → Prop} {P : Program σ}
  {first safetyPrefix threshold : Nat}

/-- The answers of a strategy leave the observer alone. -/
def Strategy.IsBlind (S : Strategy τ) : Prop :=
  ∀ r scene s, (S.answer r scene s).observer = scene.observer

/-- The state of a run under the liveness check: `first` steps were counted before it began. -/
structure Session.Watching (S : Strategy τ) (Inv : τ → Prop)
    (first safetyPrefix threshold : Nat) (s : Session (Watched τ)) : Prop where
  base : Inv s.strategy.base
  steps : S.steps s.strategy.base + s.strategy.detector.replayed = first + s.trace.length
  prefix_eq : s.strategy.detector.safetyPrefix = safetyPrefix
  threshold_eq : s.strategy.detector.threshold = threshold
  known : ∀ i, (s.observer.snapshotAt? i).isSome = true ↔
    i + 1 < s.trace.length ∧ safetyPrefix ≤ first + (i + 1)

/-- What the check does before the request of a session: the detector once a cycle has been looked
for, and what comes of it. -/
inductive Looks (first safetyPrefix : Nat) (s : Session (Watched τ)) :
    Detector → Option Violation × Detector × Observer → Prop where
  | early : s.trace.length = 0 ∨ first + s.trace.length < safetyPrefix →
      Looks first safetyPrefix s s.strategy.detector (none, s.strategy.detector, s.observer)
  | looked {last : Nat} {o : Observer} : s.trace.length = last + 1 →
      safetyPrefix ≤ first + s.trace.length →
      Photographed s.observer o last s.photo →
      Looks first safetyPrefix s
        (s.strategy.detector.judged s.scene o s.photo.fingerprint)
        (((s.strategy.detector.judged s.scene o
            s.photo.fingerprint).heatUp o last).1,
          ((s.strategy.detector.judged s.scene o
            s.photo.fingerprint).heatUp o last).2, o)

theorem Trace.last?_eq {t : Trace} :
    (t.length = 0 ∧ t.last? = none) ∨ ∃ last c, t.length = last + 1 ∧ t.last? = some (last, c) := by
  cases hback : t.choices.back? with
  | none =>
    refine .inl ⟨?_, by simp [last?, hback]⟩
    rw [Array.back?_eq_none_iff] at hback
    simp [length, hback]
  | some c =>
    have hpos : 0 < t.length := by
      rw [Nat.pos_iff_ne_zero]
      intro hzero
      have hempty : t.choices = #[] := Array.eq_empty_of_size_eq_zero hzero
      rw [hempty] at hback
      simp at hback
    exact .inr ⟨t.length - 1, c, by omega, by simp [last?, hback]⟩

theorem looks {s : Session (Watched τ)} (h : s.Watching S Inv first safetyPrefix threshold) :
    Looks first safetyPrefix s (s.strategy.sought S s.scene) (s.strategy.finding S s.scene) := by
  unfold Watched.finding Watched.sought
  rw [h.steps]
  unfold Detector.observe Detector.sought
  rcases Trace.last?_eq (t := s.trace) with ⟨hzero, hlast⟩ | ⟨last, c, hlength, hlast⟩
  · rw [show s.scene.trace.last? = none from hlast]
    exact .early (.inl hzero)
  · rw [show s.scene.trace.last? = some (last, c) from hlast]
    dsimp only
    split
    · rename_i hlt
      rw [h.prefix_eq] at hlt
      exact .early (.inr hlt)
    · rename_i hge
      rw [h.prefix_eq] at hge
      have hnew : s.observer.snapshotAt? last = none := by
        have hknown := h.known last
        rw [hlength] at hknown
        cases hget : s.observer.snapshotAt? last with
        | none => rfl
        | some snapshot =>
          rw [hget] at hknown
          have hlt := (hknown.1 rfl).1
          omega
      obtain ⟨o, hphoto, hcapture⟩ := capture_of_new Element.digest hnew s.offered
      rw [show s.scene.observer.capture Element.digest last s.scene.units = _ from hcapture]
      exact .looked hlength (by omega) hphoto

theorem Looks.known {s : Session (Watched τ)} {sought : Detector}
    {result : Option Violation × Detector × Observer}
    (hs : s.Watching S Inv first safetyPrefix threshold)
    (h : Looks first safetyPrefix s sought result) (i : Nat) :
    (result.2.2.snapshotAt? i).isSome = true ↔
      i < s.trace.length ∧ safetyPrefix ≤ first + (i + 1) := by
  cases h with
  | early hearly =>
    rw [hs.known i]
    omega
  | looked hlength hlooked hphoto =>
    rw [hphoto.snapshotAt? i]
    split
    · rename_i hlast
      simp only [Option.isSome_some, true_iff]
      omega
    · rename_i hlast
      rw [hs.known i]
      omega

/-- From the end of the safety prefix on the state reached is photographed and judged. -/
theorem Looks.taken {s : Session (Watched τ)} {sought : Detector}
    {result : Option Violation × Detector × Observer}
    (h : Looks first safetyPrefix s sought result) {last : Nat} (hlast : s.trace.length = last + 1)
    (hlooked : safetyPrefix ≤ first + s.trace.length) :
    ∃ o, Photographed s.observer o last s.photo ∧
      sought = s.strategy.detector.judged s.scene o s.photo.fingerprint ∧
      result = ((sought.heatUp o last).1, (sought.heatUp o last).2, o) := by
  cases h with
  | early hearly => omega
  | @looked last' o hlast' _ hphoto =>
    obtain rfl : last = last' := by omega
    exact ⟨o, hphoto, rfl, rfl⟩

theorem answer_settings (S : Strategy τ) (r : Request) (scene : Scene) (s : Watched τ) :
    ((Watched.strategy S).answer r scene s).state.detector.safetyPrefix =
        s.detector.safetyPrefix ∧
      ((Watched.strategy S).answer r scene s).state.detector.threshold = s.detector.threshold := by
  have hkept := finding_kept (S := S) scene s
  have hanswer := watched_answer S r scene s
  generalize (Watched.strategy S).answer r scene s = answer at hanswer ⊢
  cases hanswer with
  | confirmed hfinding => rw [hfinding] at hkept; exact ⟨hkept.safetyPrefix, hkept.threshold⟩
  | followed hfinding => rw [hfinding] at hkept; exact ⟨hkept.safetyPrefix, hkept.threshold⟩
  | forwarded hfinding => rw [hfinding] at hkept; exact ⟨hkept.safetyPrefix, hkept.threshold⟩

theorem reaches_settings {start s : Watched τ} (h : (Watched.strategy S).Reaches start s) :
    s.detector.safetyPrefix = start.detector.safetyPrefix ∧
      s.detector.threshold = start.detector.threshold := by
  induction h with
  | start => exact ⟨rfl, rfl⟩
  | @answer s r scene _ ih =>
    have hanswer := answer_settings S r scene s
    exact ⟨hanswer.1.trans ih.1, hanswer.2.trans ih.2⟩
  | prepare _ ih => exact ih
  | reset _ ih => exact ih

theorem answer_cases (a : Pause σ (Watched τ)) :
    WatchedAnswer S (a.place.request P) a.session.scene a.session.strategy
      (a.answer (Watched.strategy S) P) := watched_answer S _ _ _

theorem answer_observer (hblind : S.IsBlind) (a : Pause σ (Watched τ)) :
    (a.answer (Watched.strategy S) P).observer =
      (a.session.strategy.finding S a.session.scene).2.2 := by
  have hanswer := answer_cases (S := S) (P := P) a
  generalize a.answer (Watched.strategy S) P = answer at hanswer ⊢
  cases hanswer with
  | confirmed hfinding => rw [hfinding]
  | followed hfinding => rw [hfinding]
  | forwarded hfinding => rw [hfinding]; exact hblind _ _ _

theorem watching_turn (hS : S.Conforms Inv) (hblind : S.IsBlind) {a b : Pause σ (Watched τ)}
    (ha : a.session.Watching S Inv first safetyPrefix threshold)
    (hab : a.turn (Watched.strategy S) P = .inl b) :
    b.session.Watching S Inv first safetyPrefix threshold := by
  obtain ⟨v, hresult, hstrategy, htrace, halbum, _⟩ := turn_eq_inl hab
  have hlooks := looks ha
  obtain ⟨hlooked, hthreshold⟩ :=
    answer_settings S (a.place.request P) a.session.scene a.session.strategy
  have hserved := (watched_conforms hS).served (a.place.request P) a.session.scene
    a.session.strategy ha.base
  have hkept := (watched_conforms hS).answer (a.place.request P) a.session.scene
    a.session.strategy ha.base
  change Served _ _ (a.answer (Watched.strategy S) P).result
    ((Watched.strategy S).steps (a.answer (Watched.strategy S) P).state) at hserved
  change Inv (a.answer (Watched.strategy S) P).state.base at hkept
  rw [hresult] at hserved
  have hsteps : (Watched.strategy S).steps (a.answer (Watched.strategy S) P).state =
      first + b.session.trace.length := by
    generalize (Watched.strategy S).steps (a.answer (Watched.strategy S) P).state = steps
      at hserved ⊢
    cases hserved
    rw [htrace, Trace.length_push, ← Nat.add_assoc, ← ha.steps]
    rfl
  refine ⟨by rw [hstrategy]; exact hkept, by rw [hstrategy]; exact hsteps, ?_, ?_, ?_⟩
  · rw [hstrategy]
    exact hlooked.trans ha.prefix_eq
  · rw [hstrategy]
    exact hthreshold.trans ha.threshold_eq
  · intro i
    unfold Observer.snapshotAt?
    rw [halbum, answer_observer hblind, htrace, Trace.length_push, Nat.add_lt_add_iff_right]
    exact hlooks.known ha i

theorem watching_opening {start : Watched τ} {a : Pause σ (Watched τ)} (hstart : Inv start.base)
    (h : P.opening (Watched.strategy S) start = .inl a) :
    a.session.Watching S Inv ((Watched.strategy S).steps start) start.detector.safetyPrefix
      start.detector.threshold := by
  obtain ⟨hstrategy, htrace, halbum, _⟩ := opening_eq_inl h
  refine ⟨by rw [hstrategy]; exact hstart, by rw [hstrategy, htrace]; rfl, by rw [hstrategy],
    by rw [hstrategy], fun i => ?_⟩
  unfold Observer.snapshotAt?
  rw [halbum, htrace]
  simp

theorem watching_pauseAt (hS : S.Conforms Inv) (hblind : S.IsBlind) {start : Watched τ}
    (hstart : Inv start.base) {n : Nat} {a : Pause σ (Watched τ)}
    (h : P.pauseAt (Watched.strategy S) start n = some a) :
    a.session.Watching S Inv ((Watched.strategy S).steps start) start.detector.safetyPrefix
      start.detector.threshold :=
  pauseAt_induction (fun _ => watching_opening hstart) (fun _ _ => watching_turn hS hblind) n a h

theorem snapshotAt?_answer (hblind : S.IsBlind) {a : Pause σ (Watched τ)}
    (ha : a.session.Watching S Inv first safetyPrefix threshold) {i : Nat}
    (hi : i + 1 ≠ a.session.trace.length) :
    (a.answer (Watched.strategy S) P).observer.snapshotAt? i =
      a.session.observer.snapshotAt? i := by
  rw [answer_observer hblind]
  have hlooks := looks ha
  generalize a.session.strategy.sought _ _ = sought,
    a.session.strategy.finding _ _ = result at hlooks ⊢
  cases hlooks with
  | early => rfl
  | looked hlength _ hphoto => rw [hphoto.snapshotAt? i, if_neg (by omega)]

/-- The photograph that is taken at a request: that of the last step. -/
def Pause.captured? (S : Strategy τ) (P : Program σ) (a : Pause σ τ) : Option Snapshot :=
  (a.answer S P).observer.snapshotAt? (a.session.trace.length - 1)

theorem look_of_captured? (hblind : S.IsBlind) {a : Pause σ (Watched τ)}
    (ha : a.session.Watching S Inv first safetyPrefix threshold) {state : Snapshot}
    (h : a.captured? (Watched.strategy S) P = some state) :
    state = a.session.photo := by
  have hlooks := looks ha
  unfold Pause.captured? at h
  rw [answer_observer hblind] at h
  generalize a.session.strategy.sought _ _ = sought,
    a.session.strategy.finding _ _ = result at hlooks h
  cases hlooks with
  | early =>
    have hknown := (ha.known (a.session.trace.length - 1)).1 (by rw [h]; rfl)
    omega
  | looked hlast _ hphoto =>
    rw [hphoto.snapshotAt?, if_pos (by omega)] at h
    exact (Option.some.inj h).symm

theorem captured?_of_snapshotAt? (hS : S.Conforms Inv) (hblind : S.IsBlind) {start : Watched τ}
    (hstart : Inv start.base) {i : Nat} {b : Pause σ (Watched τ)}
    (hb : P.pauseAt (Watched.strategy S) start (i + 1) = some b) {state : Snapshot} (later : Nat) :
    ∀ a, P.pauseAt (Watched.strategy S) start (i + 1 + later) = some a →
      (a.answer (Watched.strategy S) P).observer.snapshotAt? i = some state →
      b.captured? (Watched.strategy S) P = some state := by
  induction later with
  | zero =>
    intro a ha hstate
    rw [Nat.add_zero, hb] at ha
    cases ha
    unfold Pause.captured?
    rw [length_trace_pauseAt hb]
    exact hstate
  | succ later ih =>
    intro a ha hstate
    obtain ⟨c, hc, hca⟩ := pauseAt_of_succ ha
    obtain ⟨_, _, _, _, halbum, _⟩ := turn_eq_inl hca
    have hlength := length_trace_pauseAt ha
    rw [snapshotAt?_answer hblind (watching_pauseAt hS hblind hstart ha) (by omega)] at hstate
    refine ih c hc ?_
    unfold Observer.snapshotAt? at hstate ⊢
    rw [← halbum]
    exact hstate

theorem photograph_pauseAt (hS : S.Conforms Inv) (hblind : S.IsBlind) {start : Watched τ}
    (hstart : Inv start.base) {i : Nat} {b : Pause σ (Watched τ)}
    (hb : P.pauseAt (Watched.strategy S) start (i + 1) = some b) {state : Snapshot} (later : Nat)
    (a : Pause σ (Watched τ)) (ha : P.pauseAt (Watched.strategy S) start (i + 1 + later) = some a)
    (hstate : (a.answer (Watched.strategy S) P).observer.snapshotAt? i = some state) :
    state = b.session.photo :=
  look_of_captured? hblind (watching_pauseAt hS hblind hstart hb)
    (captured?_of_snapshotAt? hS hblind hstart hb later a ha hstate)

theorem isBlind_of_isBase {p : Plan} (hp : p.IsBase) : p.strategy.IsBlind := by
  cases p with
  | random => intro r scene s; rfl
  | depthFirst => intro r scene s; rfl
  | partialOrder => intro r scene s; rfl
  | replay => intro r scene s; rfl
  | watch => exact hp.elim
  | scripted => exact hp.elim
  | transition => exact hp.elim
  | wholeTrace => exact hp.elim

end Runs
end Interleave
