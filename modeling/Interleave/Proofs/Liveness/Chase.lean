import Interleave.Proofs.Liveness.Watching
import Interleave.Proofs.Liveness.Window

/-!
# Interleave.Proofs.Liveness.Chase

What the liveness check knows of a cycle while it is repeated. `Chase.Tracks` ties what has been
counted to the trace: where the cycle lies in it, what has been repeated since, and which states
have been compared.

* `tracks_begin`, `tracks_photographed`, `tracks_advance`, `tracks_step`: what happens to a chase
  keeps it on track.
* `looks_onTrack`: so does what the check does before a request.
* `onTrack_turn`, `onTrack_pauseAt`: so does a turn of the run, and every run.
-/

namespace Interleave

/-- A chase in a run: the cycle is a window of the trace that begins at `start`, the choices after
it repeat those of the cycle, and at so many requests the state was compared with it. -/
structure Chase.Tracks (threshold : Nat) (trace : Trace) (observer : Observer)
    (start checks : Nat) (c : Chase) : Prop where
  window : Window trace observer start c.cycle
  fair : c.cycle.isFair = true
  hot_eq : c.hot = c.cycle.hotMonitors
  hot_ne : c.hot ≠ []
  threshold_eq : c.threshold = if threshold = 0 then 10 * c.cycle.length else threshold
  temperature_eq : c.temperature = checks
  lt_unchecked : start < c.unchecked
  unchecked_le : c.unchecked ≤ max (start + 1) (start + c.cycle.length + checks - 1)
  cursor_eq : c.cursor = (trace.length - (start + c.cycle.length)) % c.cycle.length
  repeats : ∀ i choice, trace.get? (start + c.cycle.length + i) = some choice →
    ∃ step, c.cycle[i % c.cycle.length]? = some step ∧ choice.payload = step.choice.payload
  visited : ∀ i state, start + c.cycle.length ≤ i → i + 1 < start + c.cycle.length + checks →
    observer.snapshotAt? i = some state → c.cycle.visits state.fingerprint = true
  warm : ∀ i state, start + c.cycle.length ≤ i + 1 → i + 1 < start + c.cycle.length + checks →
    observer.snapshotAt? i = some state → ∀ name ∈ c.hot, (state.heatOf name).isCold = false

section Search

variable {scene : Scene} {occurrences : Occurrences}

theorem retry_spec (hcount : 2 ≤ occurrences.count) {cycle : Cycle} (n : Nat) :
    ∀ source, (Detector.retry scene occurrences n source).1 = some cycle →
      cycle.isFair = true ∧ ∃ pick, pick + 2 ≤ occurrences.count ∧
        cycle = Detector.cycleFrom scene occurrences pick := by
  induction n with
  | zero => intro source h; cases h
  | succ n ih =>
    intro source h
    simp only [Detector.retry] at h
    generalize hdraw : (if 2 < occurrences.count then source.below (occurrences.count - 2)
      else (0, source)) = drawn at h
    have hpick : drawn.1 + 2 ≤ occurrences.count := by
      rw [← hdraw]
      split
      · rename_i hmany
        have hlt := Source.below_lt (n := occurrences.count - 2) (by omega) source
        omega
      · exact hcount
    split at h
    · rename_i hfair
      cases h
      exact ⟨hfair, drawn.1, hpick, rfl⟩
    · exact ih _ h

theorem fairCycle_spec (hcount : 2 ≤ occurrences.count) {cycle : Cycle} {source : Source}
    (h : (Detector.fairCycle scene occurrences source).1 = some cycle) :
    cycle.isFair = true ∧ ∃ pick, pick + 2 ≤ occurrences.count ∧
      cycle = Detector.cycleFrom scene occurrences pick := by
  simp only [Detector.fairCycle] at h
  split at h
  · rename_i hfair
    cases h
    exact ⟨hfair, _, by omega, rfl⟩
  · exact retry_spec hcount _ _ h

/-- A chase begins with a fair cycle in which a monitor is hot throughout. -/
theorem seek_spec {fingerprint : UInt64} {d : Detector} {c : Chase} (hnone : d.chase = none)
    (h : (d.seek scene fingerprint).chase = some c) :
    ∃ cycle pick, pick + 2 ≤ (scene.observer.occurrences fingerprint).count ∧
      cycle = Detector.cycleFrom scene (scene.observer.occurrences fingerprint) pick ∧
      cycle.isFair = true ∧ cycle.hotMonitors ≠ [] ∧
      c = .begin d.threshold cycle cycle.hotMonitors := by
  unfold Detector.seek at h
  rw [hnone] at h
  dsimp only [Option.isSome_none, Bool.false_eq_true, if_false] at h
  split at h
  · rename_i hsome
    cases hsome
  · split at h
    · rw [hnone] at h
      cases h
    · rename_i hcount
      split at h
      · cases h
      · rename_i cycle hcycle
        obtain ⟨hfair, pick, hpick, heq⟩ := fairCycle_spec (by omega) hcycle
        split at h
        · cases h
        · rename_i hhot
          cases h
          exact ⟨cycle, pick, hpick, heq, hfair, by simpa using hhot, rfl⟩

end Search

section Chases

variable {σ τ : Type} {S : Strategy τ} {Inv : τ → Prop} {P : Program σ}
  {first safetyPrefix threshold : Nat}

/-- The cycle from an earlier occurrence of the state reached is the end of the trace. -/
theorem window_cycleFrom {s : Session (Watched τ)}
    (hs : s.Watching S Inv first safetyPrefix threshold) {last : Nat} {o : Observer}
    (hlast : s.trace.length = last + 1) (hphoto : Photographed s.observer o last s.photo)
    {pick : Nat} (hpick : pick + 2 ≤ (o.occurrences s.photo.fingerprint).count) :
    ∃ start, Window s.trace o start (Detector.cycleFrom { s.scene with observer := o }
        (o.occurrences s.photo.fingerprint) pick) ∧
      s.trace.length = start + (Detector.cycleFrom { s.scene with observer := o }
        (o.occurrences s.photo.fingerprint) pick).length := by
  -- the photograph just taken is the last occurrence, and the one picked comes before it
  have hoccurrences := hphoto.occurrences s.photo.fingerprint
  rw [if_pos rfl] at hoccurrences
  have hlt : pick < (s.observer.occurrences s.photo.fingerprint).toList.length := by
    rw [hoccurrences] at hpick
    change pick + 2 ≤ (s.observer.occurrences _).count + 1 at hpick
    rw [Occurrences.length_toList]
    omega
  obtain ⟨found, hfound⟩ : ∃ found,
      (s.observer.occurrences s.photo.fingerprint).toList[pick]? = some found :=
    ⟨_, List.getElem?_eq_getElem hlt⟩
  have hpicked : (o.occurrences s.photo.fingerprint).get? pick = some found := by
    rw [hoccurrences, Occurrences.get?_eq_getElem?_toList, Occurrences.toList_add,
      List.getElem?_append_left hlt, hfound]
  obtain ⟨before, hbefore, heq⟩ := Option.map_eq_some_iff.1
    ((Album.mem_occurrences_iff _ _ _).1 (List.mem_of_getElem? hfound))
  obtain ⟨hearlier, hlooked⟩ := (hs.known found).1 (Option.isSome_iff_exists.2 ⟨before, hbefore⟩)
  have hknown : ∀ i, found + 1 ≤ i → i < s.trace.length → (o.snapshotAt? i).isSome = true :=
    fun i hi hi' => (Looks.known hs (.looked hlast (by omega) hphoto) i).2 ⟨hi', by omega⟩
  have hcycle : Detector.cycleFrom { s.scene with observer := o }
      (o.occurrences s.photo.fingerprint) pick = Cycle.collect s.trace o (found + 1) := by
    rw [Detector.cycleFrom, hpicked]
    rfl
  rw [hcycle]
  refine ⟨found + 1, window_collect (Nat.succ_pos found) hearlier hknown
    (hphoto.extends _ _ hbefore) ?_ heq, ?_⟩
  · rw [hphoto.snapshotAt?, if_pos (by omega)]
  · rw [(collect_spec hknown).1]
    omega

/-- Where nothing has been repeated yet, a cycle that ends with the last step is on track. -/
theorem tracks_of_window {trace : Trace} {o : Observer} {start : Nat} {cycle : Cycle}
    (h : Window trace o start cycle) (hlength : trace.length = start + cycle.length)
    (hfair : cycle.isFair = true) (hhot : cycle.hotMonitors ≠ []) :
    (Chase.begin threshold cycle cycle.hotMonitors).Tracks threshold trace o start 0 where
  window := h
  fair := hfair
  hot_eq := rfl
  hot_ne := hhot
  threshold_eq := rfl
  temperature_eq := rfl
  lt_unchecked := by
    show start < cycle.start + 1
    rw [h.start_eq]
    exact Nat.lt_succ_self start
  unchecked_le := by
    show cycle.start + 1 ≤ _
    rw [h.start_eq]
    exact Nat.le_max_left _ _
  cursor_eq := by
    show 0 = (trace.length - (start + cycle.length)) % cycle.length
    rw [hlength, Nat.sub_self, Nat.zero_mod]
  repeats := by
    intro i choice hchoice
    rw [Trace.get?_eq_getElem?_toList] at hchoice
    have hbound := (List.getElem?_eq_some_iff.1 hchoice).1
    rw [Trace.length_toList] at hbound
    change start + cycle.length + i < trace.length at hbound
    omega
  visited i state hle hlt := by omega
  warm i state hle hlt := by omega

/-- A chase that is begun now has a cycle that ends with the last step. -/
theorem tracks_begin {s : Session (Watched τ)}
    (hs : s.Watching S Inv first safetyPrefix threshold) {last : Nat} {o : Observer}
    (hlast : s.trace.length = last + 1)
    (hphoto : Photographed s.observer o last s.photo)
    (hnone : s.strategy.detector.chase = none) {c : Chase}
    (hc : (s.strategy.detector.judged s.scene o
      s.photo.fingerprint).chase = some c) :
    ∃ start, c.Tracks threshold s.trace o start 0 ∧ s.trace.length = start + c.cycle.length ∧
      c.temperature < c.threshold := by
  unfold Detector.judged at hc
  split at hc
  · obtain ⟨cycle, pick, hpick, hcycle, hfair, hhot, rfl⟩ := seek_spec hnone hc
    obtain ⟨start, hwindow, hlength⟩ := window_cycleFrom hs hlast hphoto hpick
    rw [← hcycle] at hwindow hlength
    rw [hs.threshold_eq]
    refine ⟨start, tracks_of_window hwindow hlength hfair hhot, hlength, ?_⟩
    show 0 < if threshold = 0 then Chase.heatPerStep * cycle.length else threshold
    split
    · exact Nat.mul_pos (by decide) hwindow.length_pos
    · omega
  · rw [hnone] at hc
    cases hc

theorem Chase.Tracks.congr {trace : Trace} {o o' : Observer} {start checks : Nat} {c : Chase}
    (h : c.Tracks threshold trace o start checks)
    (heq : ∀ i, o'.snapshotAt? i = o.snapshotAt? i) : c.Tracks threshold trace o' start checks :=
  { h with
    window := h.window.mono (fun _ _ => id) fun i _ hstate => (heq i).trans hstate
    visited := fun i state hle hlt hstate => h.visited i state hle hlt ((heq i).symm.trans hstate)
    warm := fun i state hle hlt hstate => h.warm i state hle hlt ((heq i).symm.trans hstate) }

theorem tracks_photographed {trace : Trace} {o o' : Observer} {start checks last : Nat}
    {c : Chase} {snapshot : Snapshot} (h : c.Tracks threshold trace o start checks)
    (hlength : trace.length = start + c.cycle.length + checks) (hlast : trace.length = last + 1)
    (hphoto : Photographed o o' last snapshot) : c.Tracks threshold trace o' start checks := by
  have hold : ∀ i state, i + 1 < start + c.cycle.length + checks →
      o'.snapshotAt? i = some state → o.snapshotAt? i = some state := by
    intro i state hi hstate
    rwa [hphoto.snapshotAt? i, if_neg (by omega)] at hstate
  exact
    { h with
      window := h.window.mono (fun _ _ => id) hphoto.extends
      visited := fun i state hle hlt hstate => h.visited i state hle hlt (hold i state hlt hstate)
      warm := fun i state hle hlt hstate => h.warm i state hle hlt (hold i state hlt hstate) }

theorem tracks_advance {trace : Trace} {o : Observer} {start checks last : Nat} {c c' : Chase}
    (h : c.Tracks threshold trace o start checks)
    (hlength : trace.length = start + c.cycle.length + checks) (hlast : trace.length = last + 1)
    (hheat : ∀ state, o.snapshotAt? last = some state → ∀ name, state.heatOf name = o.heatOf name)
    (hadvance : c.advance? o last = some c') :
    c'.Tracks threshold trace o start (checks + 1) ∧ c'.cycle = c.cycle ∧
      c'.threshold = c.threshold ∧ c'.temperature = c.temperature + 1 := by
  have hpos := h.window.length_pos
  have hlow := h.lt_unchecked
  have hhigh := h.unchecked_le
  unfold Chase.advance? at hadvance
  split at hadvance
  · cases hadvance
  · rename_i hwarm
    split at hadvance
    · cases hadvance
    · rename_i hstay
      cases hadvance
      refine ⟨?_, rfl, rfl, rfl⟩
      refine
        { h with
          temperature_eq := congrArg (· + 1) h.temperature_eq
          lt_unchecked := Nat.lt_of_lt_of_le hlow (Nat.le_max_left _ _)
          unchecked_le := ?_
          visited := ?_
          warm := ?_ }
      · show max c.unchecked (last + 1) ≤ _
        dsimp only
        omega
      · intro i state hle hlt hstate
        dsimp only at hle hlt ⊢
        rcases Nat.lt_or_ge (i + 1) (start + c.cycle.length + checks) with hi | hi
        · exact h.visited i state hle hi hstate
        · have hi : i = last := by omega
          subst hi
          by_contra hleft
          refine hstay (List.any_eq_true.2 ⟨i, ?_, ?_⟩)
          · rw [List.mem_range'_1]
            omega
          · simpa [hstate] using hleft
      · intro i state hle hlt hstate name hname
        dsimp only at hle hlt hname
        rcases Nat.lt_or_ge (i + 1) (start + c.cycle.length + checks) with hi | hi
        · exact h.warm i state hle hi hstate name hname
        · have hi : i = last := by omega
          subst hi
          rw [hheat state hstate name]
          cases hcold : (o.heatOf name).isCold with
          | false => rfl
          | true => exact absurd (List.any_eq_true.2 ⟨name, hname, hcold⟩) hwarm

theorem tracks_step {trace : Trace} {o : Observer} {start checks : Nat} {c : Chase}
    {choice : Choice} {step : CycleStep} (h : c.Tracks threshold trace o start checks)
    (hlength : start + c.cycle.length ≤ trace.length) (hstep : c.cycle[c.cursor]? = some step)
    (hchoice : choice.payload = step.choice.payload) :
    c.step.Tracks threshold (trace.push choice) o start checks := by
  have hpos := h.window.length_pos
  refine
    { h with
      window := h.window.mono (fun i old hold => ?_) fun _ _ => id
      cursor_eq := ?_
      repeats := ?_ }
  · rw [Trace.get?_push, if_neg ?_]
    · exact hold
    · rw [Trace.get?_eq_getElem?_toList] at hold
      have hbound := (List.getElem?_eq_some_iff.1 hold).1
      rw [Trace.length_toList] at hbound
      omega
  · show (c.cursor + 1) % max c.cycle.length 1 = _
    rw [h.cursor_eq, Nat.max_eq_left hpos, Nat.mod_add_mod, Trace.length_push]
    congr 1
    show trace.length - (start + c.cycle.length) + 1 = trace.length + 1 - (start + c.cycle.length)
    omega
  · intro i old hold
    change (trace.push choice).get? (start + c.cycle.length + i) = some old at hold
    show ∃ step, c.cycle[i % c.cycle.length]? = some step ∧ _
    rw [Trace.get?_push] at hold
    split at hold
    · rename_i hi
      cases hold
      have hcursor : c.cursor = i % c.cycle.length := by
        rw [h.cursor_eq, ← hi, Nat.add_sub_cancel_left]
      exact ⟨step, by rw [← hcursor]; exact hstep, hchoice⟩
    · exact h.repeats i old hold

/-- A chase at a pause: the choices of the cycle have been repeated as often as states have been
compared, and the threshold is not reached. -/
def Session.OnTrack (threshold : Nat) (s : Session (Watched τ)) : Prop :=
  ∀ c : Chase, s.strategy.detector.chase = some c → ∃ start checks,
    c.Tracks threshold s.trace s.observer start checks ∧
      s.trace.length = start + c.cycle.length + checks ∧ c.temperature < c.threshold

theorem judged_of_chase {d : Detector} {c : Chase} (h : d.chase = some c) (scene : Scene)
    (o : Observer) (fingerprint : UInt64) : d.judged scene o fingerprint = d := by
  simp [Detector.judged, Detector.seek, h]

theorem judged_onTrack {s : Session (Watched τ)}
    (hs : s.Watching S Inv first safetyPrefix threshold) (htrack : s.OnTrack threshold) {last : Nat}
    {o : Observer} (hlast : s.trace.length = last + 1)
    (hphoto : Photographed s.observer o last s.photo)
    {c : Chase} (hc : (s.strategy.detector.judged s.scene o
      s.photo.fingerprint).chase = some c) :
    ∃ start checks, c.Tracks threshold s.trace o start checks ∧
      s.trace.length = start + c.cycle.length + checks ∧ c.temperature < c.threshold := by
  cases hchase : s.strategy.detector.chase with
  | none =>
    obtain ⟨start, htracks, hlength, hcool⟩ := tracks_begin hs hlast hphoto hchase hc
    exact ⟨start, 0, htracks, hlength, hcool⟩
  | some old =>
    rw [judged_of_chase hchase, hchase] at hc
    cases hc
    obtain ⟨start, checks, htracks, hlength, hcool⟩ := htrack c hchase
    exact ⟨start, checks, tracks_photographed htracks hlength hlast hphoto, hlength, hcool⟩

/-- A chase is begun after the safety prefix. -/
theorem Chase.Tracks.looked {s : Session (Watched τ)}
    (hs : s.Watching S Inv first safetyPrefix threshold) {start checks : Nat} {c : Chase}
    (h : c.Tracks threshold s.trace s.observer start checks) :
    0 < s.trace.length ∧ safetyPrefix ≤ first + s.trace.length := by
  obtain ⟨before, _, hbefore, _, _⟩ := h.window.closes
  have hknown := (hs.known (start - 1)).1 (by rw [hbefore]; rfl)
  have hpos := h.window.start_pos
  omega

/-- After a look one more state has been compared; at the threshold the violation is found. -/
theorem looks_onTrack {s : Session (Watched τ)}
    (hs : s.Watching S Inv first safetyPrefix threshold) (htrack : s.OnTrack threshold)
    {sought d : Detector} {found : Option Violation} {o : Observer}
    (h : Looks first safetyPrefix s sought (found, d, o)) :
    (∀ c : Chase, d.chase = some c → ∃ start checks,
      c.Tracks threshold s.trace o start (checks + 1) ∧
        s.trace.length = start + c.cycle.length + checks ∧ c.temperature < c.threshold) ∧
    ∀ v, found = some v → ∃ (c : Chase) (start checks : Nat), v = c.violation ∧
      c.Tracks threshold s.trace o start (checks + 1) ∧
        s.trace.length = start + c.cycle.length + checks ∧ c.temperature = c.threshold := by
  cases h with
  | early hearly =>
    refine ⟨fun c hc => ?_, fun v hv => (by cases hv)⟩
    obtain ⟨start, checks, htracks, hlength, _⟩ := htrack c hc
    have hlooked := htracks.looked hs
    omega
  | @looked last o hlast hlooked hphoto =>
    have hheat : ∀ state, o.snapshotAt? last = some state →
        ∀ name, state.heatOf name = o.heatOf name := by
      intro state hstate name
      rw [hphoto.snapshotAt?, if_pos rfl] at hstate
      cases hstate
      rw [Session.heatOf_photo, Observer.heatOf, Observer.heatOf, hphoto.observed]
    have hjudged := fun c => judged_onTrack (c := c) hs htrack hlast hphoto
    generalize s.strategy.detector.judged s.scene o _ = d at hjudged ⊢
    unfold Detector.heatUp
    split
    · exact ⟨fun c hc => (by cases hc), fun v hv => (by cases hv)⟩
    · rename_i c hadvance
      obtain ⟨old, hold, hadvance⟩ := Option.bind_eq_some_iff.1 hadvance
      obtain ⟨start, checks, htracks, hlength, hcool⟩ := hjudged old hold
      obtain ⟨htracks', hcycle, hthreshold, htemperature⟩ :=
        tracks_advance htracks hlength hlast hheat hadvance
      split
      · rename_i hbelow
        refine ⟨fun c' hc' => ?_, fun v hv => (by cases hv)⟩
        cases hc'
        exact ⟨start, checks, htracks', by rw [hcycle]; exact hlength, hbelow⟩
      · rename_i hreached
        refine ⟨fun c' hc' => (by cases hc'), fun v hv => ?_⟩
        cases hv
        exact ⟨c, start, checks, rfl, htracks', by rw [hcycle]; exact hlength, by omega⟩

theorem onTrack_turn {a b : Pause σ (Watched τ)} (hblind : S.IsBlind)
    (ha : a.session.Watching S Inv first safetyPrefix threshold)
    (htrack : a.session.OnTrack threshold) (hab : a.turn (Watched.strategy S) P = .inl b) :
    b.session.OnTrack threshold := by
  obtain ⟨v, hresult, hstrategy, htrace, halbum, _⟩ := turn_eq_inl hab
  have hlooks := looks ha
  have hobserver := answer_observer (P := P) hblind a
  have hanswer := answer_cases (S := S) (P := P) a
  intro c hc
  rw [hstrategy] at hc
  rw [hobserver] at halbum
  generalize a.answer (Watched.strategy S) P = answer at hanswer hresult hc
  cases hanswer with
  | confirmed => cases hresult
  | forwarded => cases hc
  | @followed d o old step value hfinding hchase hstep haccept =>
    rw [hfinding] at hlooks halbum
    cases hresult
    cases hc
    obtain ⟨start, checks, htracks, hlength, hcool⟩ := (looks_onTrack ha htrack hlooks).1 old hchase
    have hstep' := tracks_step htracks (by omega) hstep (payload_of_accept? haccept)
    refine ⟨start, checks + 1, ?_, ?_, hcool⟩
    · rw [htrace]
      exact hstep'.congr fun i => by unfold Observer.snapshotAt?; rw [halbum]
    · rw [htrace, Trace.length_push, hlength]
      rfl

theorem onTrack_pauseAt (hS : S.Conforms Inv) (hblind : S.IsBlind) {start : Watched τ}
    (hstart : Inv start.base) {m : Nat} {b : Pause σ (Watched τ)}
    (hb : P.pauseAt (Watched.strategy S) start m = some b)
    (hentry : b.session.strategy.detector.chase = none) (later : Nat) :
    ∀ a, P.pauseAt (Watched.strategy S) start (m + later) = some a →
      a.session.OnTrack start.detector.threshold := by
  induction later with
  | zero =>
    intro a ha c hc
    rw [Nat.add_zero, hb] at ha
    cases ha
    rw [hentry] at hc
    cases hc
  | succ later ih =>
    intro a ha
    obtain ⟨d, hd, hda⟩ := pauseAt_of_succ ha
    exact onTrack_turn hblind (watching_pauseAt hS hblind hstart hd) (ih d hd) hda

end Chases

end Interleave
