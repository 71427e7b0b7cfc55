import Interleave.Proofs.Demands
import Interleave.Proofs.Liveness.Heating

/-!
# Interleave.Proofs.Liveness.Registers

The liveness check with everything it knows of a cycle in a register of its own. The registers are
set together when a cycle is found and cleared together when it is given up. In between, requests
write some of them, and so do the end of a run and a new start.

* `Registers`, `Registered.strategy`: the check, written over the registers.
* `Registers.Whole`: all of them are cleared, or all of them belong to one fair cycle with a monitor
  hot throughout.
* `Detector.registers`: what the registers hold of a detector. All operations on them agree with
  those of the detector, as long as its chase is sound (`Detector.Sound`).
* `registers_whole`: they are whole whatever is demanded of the check and in whatever order.
-/

namespace Interleave

structure Registers where
  source : Source
  safetyPrefix : Nat
  /-- The threshold of every cycle; zero leaves it to the length of the cycle. -/
  configured : Nat
  /-- The steps of this run that repeated a cycle. -/
  replayed : Nat
  replaying : Bool
  cycle : Cycle
  fingerprints : Collection UInt64
  /-- The monitors hot throughout the cycle. -/
  hot : List String
  /-- The least step number in the cycle. -/
  cycleStart : Nat
  temperature : Nat
  threshold : Nat
  /-- The place in the cycle of the next choice. -/
  cursor : Nat
  /-- The first step whose state has not been compared with the cycle. -/
  unchecked : Nat

namespace Cycle

def fingerprints (c : Cycle) : Collection UInt64 :=
  .ofList (c.map fun step => step.state.fingerprint)

theorem contains_fingerprints_iff {c : Cycle} {fingerprint : UInt64} :
    c.fingerprints.contains fingerprint = true ↔
      ∃ step ∈ c, step.state.fingerprint = fingerprint := by
  rw [fingerprints, Collection.contains_ofList, List.mem_map]

theorem contains_fingerprints (c : Cycle) (fingerprint : UInt64) :
    c.fingerprints.contains fingerprint = c.visits fingerprint := by
  rw [Bool.eq_iff_iff, contains_fingerprints_iff, visits_iff]

theorem start_least {c : Cycle} (hc : c ≠ []) :
    (∃ step ∈ c, step.index = c.start) ∧ ∀ step ∈ c, c.start ≤ step.index := by
  obtain ⟨least, hleast⟩ := Option.isSome_iff_exists.1
    (List.isSome_min?_of_ne_nil (l := c.map (·.index)) (by simpa using hc))
  have hstart : c.start = least := by rw [start, hleast]; rfl
  obtain ⟨hmem, hle⟩ := List.min?_eq_some_iff.1 hleast
  rw [hstart]
  exact ⟨List.mem_map.1 hmem, fun step hstep => hle _ (List.mem_map_of_mem hstep)⟩

end Cycle

namespace Registers

/-- Registers without a cycle. -/
def blank (source : Source) (safetyPrefix configured replayed : Nat) : Registers where
  source
  safetyPrefix
  configured
  replayed
  replaying := false
  cycle := []
  fingerprints := ∅
  hot := []
  cycleStart := 0
  temperature := 0
  threshold := 0
  cursor := 0
  unchecked := 0

def new (seed : UInt64) (safetyPrefix threshold : Nat) : Registers :=
  blank (.ofSeed seed) safetyPrefix threshold 0

def clear (r : Registers) : Registers :=
  { r with
    replaying := false
    cycle := []
    fingerprints := ∅
    hot := []
    cycleStart := 0
    temperature := 0
    threshold := 0
    cursor := 0
    unchecked := 0 }

/-- Look for a cycle, unless there is one. -/
def seek (scene : Scene) (fingerprint : UInt64) (r : Registers) : Registers :=
  if !r.cycle.isEmpty then r
  else
    let occurrences := scene.observer.occurrences fingerprint
    if occurrences.count < 2 then r
    else
      let (cycle, source) := Detector.fairCycle scene occurrences r.source
      let r := { r with source }
      match cycle with
      | none => r
      | some cycle =>
        let hot := cycle.hotMonitors
        if hot.isEmpty then r
        else
          { r with
            cycleStart := cycle.start
            threshold :=
              if 0 < r.configured then r.configured else Chase.heatPerStep * cycle.length
            fingerprints := cycle.fingerprints
            unchecked := cycle.start + 1
            hot
            cycle
            temperature := 0
            cursor := 0
            replaying := true }

/-- Whether the state of a step is known and has none of the fingerprints. -/
def strays (observer : Observer) (fingerprints : Collection UInt64) (step : Nat) : Bool :=
  match observer.snapshotAt? step with
  | some state => !fingerprints.contains state.fingerprint
  | none => false

/-- Compare the states from a step up to `last` one after the other: the step to go on with, `none`
where one of them strays. -/
def walk (observer : Observer) (fingerprints : Collection UInt64) (last step : Nat) : Option Nat :=
  if step ≤ last then
    if strays observer fingerprints step then none
    else walk observer fingerprints last (step + 1)
  else some step
termination_by last + 1 - step

def heatUp (observer : Observer) (last : Nat) (r : Registers) : Option Violation × Registers :=
  if r.hot.any fun name => (observer.heatOf name).isCold then (none, r.clear)
  else
    match walk observer r.fingerprints last r.unchecked with
    | none => (none, r.clear)
    | some unchecked =>
      let r := { r with unchecked, temperature := r.temperature + 1 }
      if r.temperature < r.threshold then (none, r)
      else (some ⟨r.hot, r.temperature, r.cycle.length⟩, r.clear)

def observe (steps : Nat) (scene : Scene) (r : Registers) :
    Option Violation × Registers × Observer :=
  match scene.trace.last? with
  | none => (none, r, scene.observer)
  | some (last, _) =>
    if steps < r.safetyPrefix then (none, r, scene.observer)
    else
      let (sighting, observer) := scene.observer.capture Element.digest last scene.units
      let scene := { scene with observer }
      let r := if sighting.repeated then r.seek scene sighting.fingerprint else r
      let (violation, r) := if r.cycle.isEmpty then (none, r) else r.heatUp observer last
      (violation, r, observer)

/-- The choice of the cycle that is next. -/
def next? (r : Registers) : Option Choice :=
  if r.replaying then r.cycle[r.cursor]?.map (·.choice) else none

def followCycle (q : Request) (r : Registers) : Verdict q.Reply × Registers :=
  match r.next? with
  -- nothing is being repeated, so that there is nothing to clear
  | none => (.forward, r)
  | some c =>
    match q.accept? c with
    | some value =>
      (.reply value,
        { r with cursor := (r.cursor + 1) % max r.cycle.length 1, replayed := r.replayed + 1 })
    | none => (.forward, r.clear)

def consult (q : Request) (below : Nat) (scene : Scene) (r : Registers) :
    Verdict q.Reply × Registers × Observer :=
  match r.observe (below + r.replayed) scene with
  | (some violation, r, observer) => (.refuse (.liveness violation), r, observer)
  | (none, r, observer) =>
    let (verdict, r) := r.followCycle q
    (verdict, r, observer)

def prepare (r : Registers) : Registers :=
  let r := { r with replayed := 0 }
  if r.replaying then { r with cursor := 0, unchecked := r.cycleStart + 1 } else r

/-- The cycle is kept, and so is the place up to which it has been compared. -/
def reset (r : Registers) : Registers := { r with cursor := 0, replayed := 0 }

end Registers

/-- A strategy with the liveness check over it, in registers. -/
structure Registered (τ : Type) where
  registers : Registers
  base : τ

namespace Registered

variable {τ : Type}

def answer (S : Strategy τ) (q : Request) (scene : Scene) (s : Registered τ) :
    Answer (Registered τ) q.Reply :=
  match s.registers.consult q (S.steps s.base) scene with
  | (.refuse refusal, registers, observer) => ⟨.error refusal, { s with registers }, observer⟩
  | (.reply value, registers, observer) => ⟨.ok value, { s with registers }, observer⟩
  | (.forward, registers, observer) =>
    let a := S.answer q { scene with observer } s.base
    ⟨a.result, ⟨registers, a.state⟩, a.observer⟩

def prepare (S : Strategy τ) (s : Registered τ) : Bool × Registered τ :=
  let (continues, base) := S.prepare s.base
  (continues, ⟨s.registers.prepare, base⟩)

def strategy (S : Strategy τ) : Strategy (Registered τ) where
  answer := answer S
  prepare := prepare S
  reset s := ⟨s.registers.reset, S.reset s.base⟩
  steps s := S.steps s.base + s.registers.replayed
  atBound s := !s.registers.replaying && S.atBound s.base
  isFair s := s.registers.replaying || S.isFair s.base
  description s := "cycle detection over " ++ S.description s.base

end Registered

/-- No cycle is being repeated, and nothing is left of one. -/
structure Registers.Cleared (r : Registers) : Prop where
  replaying : r.replaying = false
  cycle : r.cycle = []
  fingerprints : r.fingerprints = ∅
  hot : r.hot = []
  cycleStart : r.cycleStart = 0
  temperature : r.temperature = 0
  threshold : r.threshold = 0
  cursor : r.cursor = 0
  unchecked : r.unchecked = 0

/-- A cycle is being repeated, and all registers belong to it. -/
structure Registers.Repeats (configured : Nat) (r : Registers) : Prop where
  replaying : r.replaying = true
  cycle_ne : r.cycle ≠ []
  /-- The units enabled somewhere in the cycle are those that it schedules. -/
  enabled_iff : ∀ u, (∃ step ∈ r.cycle, step.state.enabled.contains u = true) ↔
    ∃ step ∈ r.cycle, step.choice = .unit u
  /-- A fair choice goes both ways. -/
  takes : ∀ step ∈ r.cycle, ∀ id value, step.choice = .fairBoolean id value →
    ∃ other ∈ r.cycle, other.choice = .fairBoolean id !value
  cursor_lt : r.cursor < r.cycle.length
  hot_ne : r.hot ≠ []
  mem_hot_iff : ∀ name, name ∈ r.hot ↔ ∀ step ∈ r.cycle, (step.state.heatOf name).isHot = true
  contains_iff : ∀ fingerprint, r.fingerprints.contains fingerprint = true ↔
    ∃ step ∈ r.cycle, step.state.fingerprint = fingerprint
  cycleStart_mem : ∃ step ∈ r.cycle, step.index = r.cycleStart
  cycleStart_le : ∀ step ∈ r.cycle, r.cycleStart ≤ step.index
  threshold_eq : r.threshold = if configured = 0 then 10 * r.cycle.length else configured
  temperature_lt : r.temperature < r.threshold

def Registers.Whole (configured : Nat) (r : Registers) : Prop := r.Cleared ∨ r.Repeats configured

/-- What the registers hold of a detector. -/
def Detector.registers (d : Detector) : Registers :=
  let r := Registers.blank d.source d.safetyPrefix d.threshold d.replayed
  match d.chase with
  | none => r
  | some c =>
    { r with
      replaying := true
      cycle := c.cycle
      fingerprints := c.cycle.fingerprints
      hot := c.hot
      cycleStart := c.cycle.start
      temperature := c.temperature
      threshold := c.threshold
      cursor := c.cursor
      unchecked := c.unchecked }

/-- A chase of a fair cycle that has not reached its threshold. -/
structure Chase.Sound (configured : Nat) (c : Chase) : Prop where
  fair : c.cycle.isFair = true
  hot_eq : c.hot = c.cycle.hotMonitors
  hot_ne : c.hot ≠ []
  cursor_lt : c.cursor < c.cycle.length
  threshold_eq : c.threshold = if configured = 0 then 10 * c.cycle.length else configured
  temperature_lt : c.temperature < c.threshold

structure Detector.Sound (configured : Nat) (d : Detector) : Prop where
  threshold_eq : d.threshold = configured
  chase : ∀ c, d.chase = some c → c.Sound configured

section Soundness

variable {d : Detector} {c c' : Chase} {configured : Nat}

theorem Chase.Sound.cycle_ne (h : c.Sound configured) : c.cycle ≠ [] :=
  List.ne_nil_of_length_pos (Nat.zero_lt_of_lt h.cursor_lt)

theorem sound_begin {cycle : Cycle} (hfair : cycle.isFair = true) (hhot : cycle.hotMonitors ≠ []) :
    (Chase.begin configured cycle cycle.hotMonitors).Sound configured := by
  have hpos : 0 < cycle.length := by
    refine List.length_pos_iff.2 ?_
    rintro rfl
    exact hhot rfl
  refine ⟨hfair, rfl, hhot, hpos, rfl, ?_⟩
  show 0 < if configured = 0 then 10 * cycle.length else configured
  split <;> omega

theorem sound_advance {observer : Observer} {last : Nat} (h : c.Sound configured)
    (hadvance : c.advance? observer last = some c') (hbelow : c'.temperature < c'.threshold) :
    c'.Sound configured := by
  unfold Chase.advance? at hadvance
  split at hadvance
  · cases hadvance
  · split at hadvance
    · cases hadvance
    · cases hadvance
      exact { h with temperature_lt := hbelow }

theorem Chase.Sound.step (h : c.Sound configured) : c.step.Sound configured :=
  { h with
    cursor_lt := by
      have hpos := Nat.zero_lt_of_lt h.cursor_lt
      show (c.cursor + 1) % max c.cycle.length 1 < c.cycle.length
      rw [Nat.max_eq_left hpos]
      exact Nat.mod_lt _ hpos }

theorem Detector.Sound.seek (h : d.Sound configured) (scene : Scene) (fingerprint : UInt64) :
    (d.seek scene fingerprint).Sound configured := by
  refine ⟨(seek_kept scene fingerprint d).threshold.trans h.threshold_eq, fun c hc => ?_⟩
  cases hchase : d.chase with
  | none =>
    obtain ⟨cycle, _, _, _, hfair, hhot, rfl⟩ := seek_spec hchase hc
    rw [h.threshold_eq]
    exact sound_begin hfair hhot
  | some old =>
    simp only [Detector.seek, hchase, Option.isSome_some, if_true] at hc
    cases hc
    exact h.chase _ hchase

theorem Detector.Sound.heatUp (h : d.Sound configured) (observer : Observer) (last : Nat) :
    (d.heatUp observer last).2.Sound configured := by
  have hheated := heated observer last d
  generalize d.heatUp observer last = x at hheated ⊢
  cases hheated with
  | cooled => exact ⟨h.threshold_eq, nofun⟩
  | warmer hc hadvance hbelow =>
    refine ⟨h.threshold_eq, ?_⟩
    rintro _ ⟨⟩
    exact sound_advance (h.chase _ hc) hadvance hbelow
  | confirmed => exact ⟨h.threshold_eq, nofun⟩

theorem Detector.Sound.observe (h : d.Sound configured) (steps : Nat) (scene : Scene) :
    (d.observe steps scene).2.1.Sound configured := by
  unfold Detector.observe
  split
  · exact h
  · split
    · exact h
    · dsimp only
      split
      · exact (h.seek _ _).heatUp _ _
      · exact h.heatUp _ _

theorem Chase.Sound.atFirst (h : c.Sound configured) (unchecked : Nat) :
    ({ c with cursor := 0, unchecked } : Chase).Sound configured :=
  { h with cursor_lt := Nat.zero_lt_of_lt h.cursor_lt }

theorem Detector.Sound.prepare (h : d.Sound configured) : d.prepare.Sound configured := by
  refine ⟨h.threshold_eq, fun c hc => ?_⟩
  obtain ⟨old, hold, rfl⟩ := Option.map_eq_some_iff.1 hc
  exact (h.chase old hold).atFirst _

theorem Detector.Sound.reset (h : d.Sound configured) : d.reset.Sound configured := by
  refine ⟨h.threshold_eq, fun c hc => ?_⟩
  obtain ⟨old, hold, rfl⟩ := Option.map_eq_some_iff.1 hc
  exact (h.chase old hold).atFirst _

theorem watched_sound {τ : Type} {S : Strategy τ} {s : Watched τ} (h : s.detector.Sound configured)
    (q : Request) (scene : Scene) :
    ((Watched.strategy S).answer q scene s).state.detector.Sound configured := by
  have hfound : (s.finding S scene).2.1.Sound configured := h.observe _ _
  have hanswer := watched_answer S q scene s
  generalize (Watched.strategy S).answer q scene s = a at hanswer ⊢
  cases hanswer with
  | confirmed hfinding => rw [hfinding] at hfound; exact hfound
  | followed hfinding hchase _ _ =>
    rw [hfinding] at hfound
    refine ⟨hfound.threshold_eq, ?_⟩
    rintro _ ⟨⟩
    exact (hfound.chase _ hchase).step
  | forwarded hfinding =>
    rw [hfinding] at hfound
    exact ⟨hfound.threshold_eq, nofun⟩

end Soundness

section Agreement

variable {d : Detector} {c : Chase} {configured : Nat}

theorem cleared_registers (h : d.chase = none) : d.registers.Cleared := by
  simp only [Detector.registers, h]
  exact ⟨rfl, rfl, rfl, rfl, rfl, rfl, rfl, rfl, rfl⟩

theorem repeats_registers (h : d.Sound configured) (hc : d.chase = some c) :
    d.registers.Repeats configured := by
  have hsound := h.chase c hc
  obtain ⟨hunits, hchoices⟩ := Bool.and_eq_true_iff.1 hsound.fair
  obtain ⟨hmem, hle⟩ := Cycle.start_least hsound.cycle_ne
  simp only [Detector.registers, hc]
  exact
    { replaying := rfl
      cycle_ne := hsound.cycle_ne
      enabled_iff := Cycle.enabled_iff_of_isSchedulingFair hunits
      takes := fun step hstep id value => Cycle.takes_of_isChoiceFair hchoices hstep
      cursor_lt := hsound.cursor_lt
      hot_ne := hsound.hot_ne
      mem_hot_iff := fun name => by
        rw [hsound.hot_eq]
        exact Cycle.mem_hotMonitors_iff hsound.cycle_ne
      contains_iff := fun _ => Cycle.contains_fingerprints_iff
      cycleStart_mem := hmem
      cycleStart_le := hle
      threshold_eq := hsound.threshold_eq
      temperature_lt := hsound.temperature_lt }

theorem whole_registers (h : d.Sound configured) : d.registers.Whole configured := by
  cases hc : d.chase with
  | none => exact .inl (cleared_registers hc)
  | some c => exact .inr (repeats_registers h hc)

/-- The step at the cursor is that of the chase. -/
theorem registers_at_cursor_iff {step : CycleStep} :
    (d.registers.replaying = true ∧ d.registers.cycle[d.registers.cursor]? = some step) ↔
      ∃ c, d.chase = some c ∧ c.cycle[c.cursor]? = some step := by
  cases hc : d.chase with
  | none => simp [(cleared_registers hc).replaying]
  | some c => simp [Detector.registers, hc]

@[simp] theorem clear_registers (d : Detector) :
    d.registers.clear = ({ d with chase := none } : Detector).registers := by
  cases hc : d.chase <;> simp only [Detector.registers, hc, Registers.clear, Registers.blank]

/-- What does not belong to a cycle is the same with one and without. -/
theorem registers_settings (d : Detector) :
    d.registers.source = d.source ∧ d.registers.safetyPrefix = d.safetyPrefix ∧
      d.registers.configured = d.threshold ∧ d.registers.replayed = d.replayed := by
  cases hc : d.chase <;> simp only [Detector.registers, hc, Registers.blank] <;> trivial

theorem isEmpty_cycle_registers (h : d.Sound configured) :
    d.registers.cycle.isEmpty = d.chase.isNone := by
  cases hc : d.chase with
  | none => rw [(cleared_registers hc).cycle]; rfl
  | some c => simpa using (repeats_registers h hc).cycle_ne

theorem registers_seek (h : d.Sound configured) (scene : Scene) (fingerprint : UInt64) :
    d.registers.seek scene fingerprint = (d.seek scene fingerprint).registers := by
  obtain ⟨hsource, -, hconfigured, -⟩ := registers_settings d
  unfold Registers.seek Detector.seek
  rw [isEmpty_cycle_registers h]
  cases hc : d.chase with
  | some c => rfl
  | none =>
    simp only [hsource, hconfigured, Option.isNone_none, Option.isSome_none, Bool.not_true,
      Bool.false_eq_true, if_false]
    split
    · rfl
    · generalize Detector.fairCycle scene _ d.source = x
      obtain ⟨cycle, source⟩ := x
      cases cycle with
      | none => simp only [Detector.registers, hc]; rfl
      | some cycle =>
        dsimp only
        split
        · simp only [Detector.registers, hc]; rfl
        · simp only [Detector.registers, hc, Chase.begin, Registers.blank, Nat.pos_iff_ne_zero,
            ite_not]

theorem walk_eq (observer : Observer) (fingerprints : Collection UInt64) (last step : Nat) :
    Registers.walk observer fingerprints last step =
      if (List.range' step (last + 1 - step)).any (Registers.strays observer fingerprints) then none
      else some (max step (last + 1)) := by
  fun_induction Registers.walk observer fingerprints last step with
  | case1 step hle hstrays =>
    rw [show last + 1 - step = last + 1 - (step + 1) + 1 by omega, List.range'_succ, List.any_cons,
      hstrays]
    rfl
  | case2 step hle hstays ih =>
    rw [ih, show last + 1 - step = last + 1 - (step + 1) + 1 by omega, List.range'_succ,
      List.any_cons, Bool.eq_false_iff.2 hstays, Bool.false_or,
      show max (step + 1) (last + 1) = max step (last + 1) by omega]
  | case3 step hlt =>
    rw [show last + 1 - step = 0 by omega, Nat.max_eq_left (by omega)]
    rfl

theorem walk_fingerprints (c : Chase) (observer : Observer) (last : Nat) :
    Registers.walk observer c.cycle.fingerprints last c.unchecked =
      if c.leaves observer last then none else some (max c.unchecked (last + 1)) := by
  have hstrays : Registers.strays observer c.cycle.fingerprints = fun step =>
      match observer.snapshotAt? step with
      | some state => !c.cycle.visits state.fingerprint
      | none => false := by
    funext step
    unfold Registers.strays
    cases observer.snapshotAt? step with
    | none => rfl
    | some state => exact congrArg not (c.cycle.contains_fingerprints state.fingerprint)
  rw [walk_eq, hstrays]
  rfl

theorem registers_heatUp (hc : d.chase = some c) (observer : Observer) (last : Nat) :
    d.registers.heatUp observer last =
      ((d.heatUp observer last).1, (d.heatUp observer last).2.registers) := by
  have hhot : d.registers.hot = c.hot := by simp only [Detector.registers, hc]
  have hwalk : Registers.walk observer d.registers.fingerprints last d.registers.unchecked =
      if c.leaves observer last then none else some (max c.unchecked (last + 1)) := by
    rw [← walk_fingerprints]
    simp only [Detector.registers, hc]
  unfold Registers.heatUp Detector.heatUp Chase.advance?
  rw [hhot, hwalk, hc, Option.bind_some]
  split
  · rw [clear_registers]
  · cases c.leaves observer last with
    | true => simp only [if_true, clear_registers]
    | false =>
      simp only [Bool.false_eq_true, if_false, Detector.registers, hc]
      split <;> rfl

/-- Without a cycle there is nothing to compare. -/
theorem registers_compare (h : d.Sound configured) (observer : Observer) (last : Nat) :
    (if d.registers.cycle.isEmpty then (none, d.registers)
      else d.registers.heatUp observer last) =
      ((d.heatUp observer last).1, (d.heatUp observer last).2.registers) := by
  rw [isEmpty_cycle_registers h]
  cases hc : d.chase with
  | none =>
    have hd : ({ d with chase := none } : Detector) = d := by rw [← hc]
    rw [heatUp_of_cold (by simp [hc]), hd]
    rfl
  | some c => exact registers_heatUp hc observer last

theorem registers_observe (h : d.Sound configured) (steps : Nat) (scene : Scene) :
    d.registers.observe steps scene =
      ((d.observe steps scene).1, (d.observe steps scene).2.1.registers,
        (d.observe steps scene).2.2) := by
  obtain ⟨-, hsafe, -, -⟩ := registers_settings d
  unfold Registers.observe Detector.observe
  cases scene.trace.last? with
  | none => rfl
  | some last =>
    obtain ⟨last, choice⟩ := last
    dsimp only
    rw [hsafe]
    by_cases hearly : steps < d.safetyPrefix
    · simp only [if_pos hearly]
    · simp only [if_neg hearly]
      generalize scene.observer.capture Element.digest last scene.units = x
      obtain ⟨sighting, observer⟩ := x
      cases sighting.repeated with
      | true => simp only [if_true, registers_seek h, registers_compare (h.seek _ _)]
      | false => simp only [Bool.false_eq_true, if_false, registers_compare h]

theorem registers_followCycle (h : d.Sound configured) (q : Request) :
    d.registers.followCycle q = ((d.followCycle q).1, (d.followCycle q).2.registers) := by
  unfold Registers.followCycle Detector.followCycle
  cases hc : d.chase with
  | none =>
    have hnext : d.registers.next? = none := by
      simp only [Registers.next?, Detector.registers, hc]; rfl
    rw [hnext]
  | some c =>
    -- the cursor is within the cycle, so that there is always a next choice
    obtain ⟨step, hstep⟩ : ∃ step, c.cycle[c.cursor]? = some step :=
      ⟨_, List.getElem?_eq_getElem (h.chase c hc).cursor_lt⟩
    have hnext : d.registers.next? = some step.choice := by
      simp only [Registers.next?, Detector.registers, hc, hstep]; rfl
    rw [hnext]
    simp only [hstep, Option.bind_some]
    cases q.accept? step.choice with
    | none => simp only [clear_registers]
    | some value =>
      simp only [Detector.registers, hc, Chase.step]
      rfl

theorem registers_consult (h : d.Sound configured) (q : Request) (below : Nat) (scene : Scene) :
    d.registers.consult q below scene =
      ((d.consult q below scene).1, (d.consult q below scene).2.1.registers,
        (d.consult q below scene).2.2) := by
  obtain ⟨-, -, -, hreplayed⟩ := registers_settings d
  have hsound := h.observe (below + d.replayed) scene
  unfold Registers.consult Detector.consult
  rw [hreplayed, registers_observe h]
  generalize d.observe _ scene = x at hsound ⊢
  obtain ⟨found, d, observer⟩ := x
  cases found with
  | some violation => rfl
  | none => simp only [registers_followCycle hsound]

theorem registers_prepare (d : Detector) : d.registers.prepare = d.prepare.registers := by
  cases hc : d.chase <;> simp only [Detector.registers, Detector.prepare, hc] <;> rfl

theorem registers_reset (d : Detector) : d.registers.reset = d.reset.registers := by
  cases hc : d.chase <;> simp only [Detector.registers, Detector.reset, hc] <;> rfl

end Agreement

/-- The registers of a watched strategy. -/
def Watched.registered {τ : Type} (s : Watched τ) : Registered τ := ⟨s.detector.registers, s.base⟩

section Runs

variable {τ : Type} {S : Strategy τ} {s : Watched τ} {configured : Nat}

theorem registered_answer (h : s.detector.Sound configured) (q : Request) (scene : Scene) :
    (Registered.strategy S).answer q scene s.registered =
      ⟨((Watched.strategy S).answer q scene s).result,
        ((Watched.strategy S).answer q scene s).state.registered,
        ((Watched.strategy S).answer q scene s).observer⟩ := by
  show Registered.answer S q scene s.registered = _
  simp only [Registered.answer, Watched.registered, registers_consult h, Watched.strategy,
    Watched.answer]
  generalize s.detector.consult q (S.steps s.base) scene = x
  obtain ⟨verdict, d, observer⟩ := x
  cases verdict <;> rfl

/-- What else is read of a strategy does not depend on the registers either. -/
theorem registered_tells (S : Strategy τ) (s : Watched τ) :
    ((Registered.strategy S).prepare s.registered).1 = ((Watched.strategy S).prepare s).1 ∧
      (Registered.strategy S).steps s.registered = (Watched.strategy S).steps s ∧
      (Registered.strategy S).atBound s.registered = (Watched.strategy S).atBound s ∧
      (Registered.strategy S).isFair s.registered = (Watched.strategy S).isFair s := by
  simp only [Registered.strategy, Watched.strategy, Watched.registered]
  cases hc : s.detector.chase <;> simp only [Detector.registers, hc] <;> exact ⟨rfl, rfl, rfl, rfl⟩

theorem watched_meet (h : s.detector.Sound configured) (d : Demand) :
    ((Watched.strategy S).meet s d).detector.Sound configured ∧
      (Registered.strategy S).meet s.registered d = ((Watched.strategy S).meet s d).registered := by
  cases d with
  | ask a =>
    refine ⟨watched_sound h _ _, ?_⟩
    simp only [Strategy.meet, registered_answer h]
  | prepare =>
    refine ⟨h.prepare, ?_⟩
    show (⟨s.detector.registers.prepare, _⟩ : Registered τ) = _
    rw [registers_prepare]
    rfl
  | reset =>
    refine ⟨h.reset, ?_⟩
    show (⟨s.detector.registers.reset, _⟩ : Registered τ) = _
    rw [registers_reset]
    rfl

theorem watched_after (demands : List Demand) : ∀ {s : Watched τ}, s.detector.Sound configured →
    ((Watched.strategy S).after s demands).detector.Sound configured ∧
      (Registered.strategy S).after s.registered demands =
        ((Watched.strategy S).after s demands).registered := by
  induction demands with
  | nil => exact fun h => ⟨h, rfl⟩
  | cons d demands ih =>
    intro s h
    obtain ⟨hsound, hmeet⟩ := watched_meet (S := S) h d
    rw [Strategy.after_cons, Strategy.after_cons, hmeet]
    exact ih hsound

/-- The registers are whole whatever is demanded of the check and in whatever order; the strategy
that keeps them is in the state of the watched one and answers like it. -/
theorem registers_whole (S : Strategy τ) (seed : UInt64) (safetyPrefix threshold : Nat) (base : τ)
    (demands : List Demand) :
    let registered := (Registered.strategy S).after ⟨.new seed safetyPrefix threshold, base⟩ demands
    let watched := (Watched.strategy S).after ⟨.new seed safetyPrefix threshold, base⟩ demands
    registered.registers.Whole threshold ∧ registered = watched.registered ∧
      ∀ a, (Registered.strategy S).respond registered a =
        (Watched.strategy S).respond watched a := by
  intro registered watched
  obtain ⟨hsound, hregistered⟩ :
      watched.detector.Sound threshold ∧ registered = watched.registered :=
    watched_after demands ⟨rfl, nofun⟩
  rw [hregistered]
  refine ⟨whole_registers hsound, rfl, fun a => ?_⟩
  simp only [Strategy.respond, registered_answer hsound]

/-- A scene of one enabled unit, which has made so many steps, and of a monitor that stays hot. -/
def loopScene (steps : Nat) : Scene :=
  let units : List Candidate := [.actor ⟨1⟩]
  let observer := Observer.empty.note Element.digest (.heat "progress" .hot)
  { trace := .ofList (List.replicate steps (.unit ⟨1⟩))
    units
    observer := (List.range (steps - 1)).foldl
      (fun o step => (o.capture Element.digest step units).2) observer }

def loopAsk (steps : Nat) : Demand := .ask ⟨.unit [.actor ⟨1⟩] none, loopScene steps⟩

/-- The state of the second step repeats that of the first one. -/
example : ((Registered.strategy DepthFirst.strategy).after ⟨.new 0 0 0, .new 0⟩
    [loopAsk 0, loopAsk 1, loopAsk 2]).registers.replaying = true := by decide +kernel

end Runs

end Interleave
