import Interleave.Proofs.Liveness.Chase

/-!
# Interleave.Proofs.Liveness.Heating

How hot a cycle is before and after a request, whatever its states are.

* `Detector.Heated`: a comparison gives the cycle up, makes it warmer by one, or confirms it.
* `chase_sought`: a look begins at most one chase, and only where there is none.
* `Watched.Finds`: before a request the check does nothing yet, or it looks and compares.
* `Watched.Warms`: the chase that comes out of a comparison is warmer by one, or has just begun.
-/

namespace Interleave

theorem advance?_eq_some {c c' : Chase} {observer : Observer} {last : Nat}
    (h : c.advance? observer last = some c') :
    c'.temperature = c.temperature + 1 ∧ c'.threshold = c.threshold := by
  unfold Chase.advance? at h
  split at h
  · cases h
  · split at h
    · cases h
    · cases h
      exact ⟨rfl, rfl⟩

/-- What a comparison makes of a detector. -/
inductive Detector.Heated (observer : Observer) (last : Nat) (d : Detector) :
    Option Violation × Detector → Prop where
  | cooled : Heated observer last d (none, { d with chase := none })
  | warmer {c c' : Chase} : d.chase = some c → c.advance? observer last = some c' →
      c'.temperature < c'.threshold → Heated observer last d (none, { d with chase := some c' })
  | confirmed {c c' : Chase} : d.chase = some c → c.advance? observer last = some c' →
      c'.threshold ≤ c'.temperature →
      Heated observer last d (some c'.violation, { d with chase := none })

theorem heated (observer : Observer) (last : Nat) (d : Detector) :
    d.Heated observer last (d.heatUp observer last) := by
  unfold Detector.heatUp
  split
  · exact .cooled
  · rename_i c' hadvance
    obtain ⟨c, hc, hadvance⟩ := Option.bind_eq_some_iff.1 hadvance
    split
    · rename_i hbelow
      exact .warmer hc hadvance hbelow
    · rename_i hreached
      exact .confirmed hc hadvance (by omega)

theorem heatUp_of_advance {d : Detector} {c c' : Chase} {observer : Observer} {last : Nat}
    (hc : d.chase = some c) (hadvance : c.advance? observer last = some c')
    (hbelow : c'.temperature < c'.threshold) :
    d.heatUp observer last = (none, { d with chase := some c' }) := by
  simp only [Detector.heatUp, hc, Option.bind_some, hadvance, if_pos hbelow]

theorem heatUp_of_cold {d : Detector} {observer : Observer} {last : Nat}
    (hcold : ∀ c, d.chase = some c → c.advance? observer last = none) :
    d.heatUp observer last = (none, { d with chase := none }) := by
  have hnone : (d.chase.bind fun c => c.advance? observer last) = none :=
    Option.bind_eq_none_iff.2 hcold
  simp only [Detector.heatUp, hnone]

/-- A detector without a chase begins one where the cycle from the last occurrence is fair and a
monitor is hot throughout. -/
theorem seek_of_fair {scene : Scene} {fingerprint : UInt64} {d : Detector} {cycle : Cycle}
    (hnone : d.chase = none) (hcount : 2 ≤ (scene.observer.occurrences fingerprint).count)
    (hcycle : Detector.cycleFrom scene (scene.observer.occurrences fingerprint)
      ((scene.observer.occurrences fingerprint).count - 2) = cycle)
    (hfair : cycle.isFair = true) (hhot : cycle.hotMonitors ≠ []) :
    d.seek scene fingerprint =
      { d with chase := some (.begin d.threshold cycle cycle.hotMonitors) } := by
  have hempty : ¬ cycle.hotMonitors.isEmpty = true := by simpa using hhot
  unfold Detector.seek
  rw [hnone, if_neg (by simp)]
  dsimp only
  rw [if_neg (by omega)]
  simp only [Detector.fairCycle, hcycle, hfair, if_true, if_neg hempty]

theorem chase_seek (scene : Scene) (fingerprint : UInt64) (d : Detector) :
    (d.seek scene fingerprint).chase = d.chase ∨
      d.chase = none ∧ ∃ cycle : Cycle, (d.seek scene fingerprint).chase =
        some (.begin d.threshold cycle cycle.hotMonitors) := by
  cases hchase : d.chase with
  | some c =>
    refine .inl ?_
    simp [Detector.seek, hchase]
  | none =>
    cases hsought : (d.seek scene fingerprint).chase with
    | none => exact .inl rfl
    | some c =>
      obtain ⟨cycle, _, _, _, _, _, rfl⟩ := seek_spec hchase hsought
      exact .inr ⟨rfl, cycle, rfl⟩

section Answers

variable {τ : Type} {S : Strategy τ} {scene : Scene} {s : Watched τ}

theorem chase_sought (S : Strategy τ) (scene : Scene) (s : Watched τ) :
    (s.sought S scene).chase = s.detector.chase ∨
      s.detector.chase = none ∧ ∃ cycle : Cycle, (s.sought S scene).chase =
        some (.begin s.detector.threshold cycle cycle.hotMonitors) := by
  unfold Watched.sought Detector.sought
  split
  · exact .inl rfl
  · split
    · exact .inl rfl
    · dsimp only
      split
      · exact chase_seek _ _ _
      · exact .inl rfl

/-- What the check does before a request. It does nothing as long as nothing has been chosen and in
the steps before states are looked at. -/
inductive Watched.Finds (S : Strategy τ) (scene : Scene) (s : Watched τ) :
    Option Violation × Detector × Observer → Prop where
  | early : scene.trace.length = 0 ∨
        S.steps s.base + s.detector.replayed < s.detector.safetyPrefix →
      Finds S scene s (none, s.detector, scene.observer)
  | looked {last : Nat} {observer : Observer} {found : Option Violation} {d : Detector} :
      scene.trace.length = last + 1 → (s.sought S scene).Heated observer last (found, d) →
      Finds S scene s (found, d, observer)

theorem finds (S : Strategy τ) (scene : Scene) (s : Watched τ) :
    s.Finds S scene (s.finding S scene) := by
  obtain ⟨d, hd⟩ : ∃ d, s.sought S scene = d := ⟨_, rfl⟩
  have hsought := hd
  unfold Watched.sought Detector.sought at hsought
  unfold Watched.finding Detector.observe
  rcases Trace.last?_eq (t := scene.trace) with ⟨hzero, hlast⟩ | ⟨last, c, hlength, hlast⟩
  · rw [hlast]
    exact .early (.inl hzero)
  · rw [hlast] at hsought ⊢
    dsimp only at hsought ⊢
    split
    · rename_i hearly
      exact .early (.inr hearly)
    · rename_i hlate
      rw [if_neg hlate] at hsought
      rw [hsought]
      exact .looked hlength (hd ▸ heated _ _ _)

/-- The chase of `s` has become the chase `c`, warmer by one; or `c` has just begun. -/
inductive Watched.Warms (s : Watched τ) (c : Chase) : Prop where
  | warmer {old : Chase} : s.detector.chase = some old → c.threshold = old.threshold →
      c.temperature = old.temperature + 1 → Warms s c
  | begun {cycle : Cycle} : s.detector.chase = none →
      c.threshold = (Chase.begin s.detector.threshold cycle cycle.hotMonitors).threshold →
      c.temperature = 1 → Warms s c

theorem warms_of_advance {c c' : Chase} {observer : Observer} {last : Nat}
    (hc : (s.sought S scene).chase = some c) (hadvance : c.advance? observer last = some c') :
    s.Warms c' := by
  obtain ⟨htemperature, hthreshold⟩ := advance?_eq_some hadvance
  rcases chase_sought S scene s with hsame | ⟨hnone, cycle, hbegun⟩
  · exact .warmer (hsame.symm.trans hc) hthreshold htemperature
  · rw [hbegun] at hc
    cases hc
    exact .begun hnone hthreshold htemperature

/-- The cycle that is in hand once the check is done has been compared, unless it is too early. -/
theorem warms_of_chase {d : Detector} {observer : Observer} {c : Chase}
    (hfinding : s.finding S scene = (none, d, observer)) (hc : d.chase = some c) :
    (s.detector.chase = some c ∧ (scene.trace.length = 0 ∨
        S.steps s.base + s.detector.replayed < s.detector.safetyPrefix)) ∨
      (0 < scene.trace.length ∧ c.temperature < c.threshold ∧ s.Warms c) := by
  have hfinds := finds S scene s
  rw [hfinding] at hfinds
  cases hfinds with
  | early hearly => exact .inl ⟨hc, hearly⟩
  | looked hlast hheated =>
    cases hheated with
    | cooled => cases hc
    | warmer hold hadvance hbelow =>
      cases hc
      exact .inr ⟨by omega, hbelow, warms_of_advance hold hadvance⟩

theorem warms_of_found {d : Detector} {observer : Observer} {v : Violation}
    (hfinding : s.finding S scene = (some v, d, observer)) :
    d.chase = none ∧ 0 < scene.trace.length ∧
      ∃ c : Chase, v = c.violation ∧ c.threshold ≤ c.temperature ∧ s.Warms c := by
  have hfinds := finds S scene s
  rw [hfinding] at hfinds
  cases hfinds with
  | looked hlast hheated =>
    cases hheated with
    | confirmed hold hadvance hreached =>
      exact ⟨rfl, by omega, _, rfl, hreached, warms_of_advance hold hadvance⟩

end Answers
end Interleave
