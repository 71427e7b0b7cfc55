import Interleave.Liveness.Cycle
import Interleave.Random.Source
import Interleave.Strategy.Basic

/-!
# Interleave.Liveness.Detector

The liveness check that stands over a strategy. Before each request it takes a snapshot of the state
reached. Where the state repeats, it looks for a fair cycle with a monitor hot throughout, and
answers with the choices of that cycle over and over while a temperature rises by one at each
request. The cycle is given up, and the request left to the strategy below, when one of its monitors
turns cold, when a state is met that is not on the cycle, or when the request does not fit the
recorded choice. At the threshold the violation is confirmed.
-/

namespace Interleave

/-- A cycle that is being repeated. -/
structure Chase where
  cycle : Cycle
  /-- The monitors hot throughout the cycle. -/
  hot : List String
  threshold : Nat
  temperature : Nat
  /-- The place in the cycle of the next choice. -/
  cursor : Nat
  /-- The first step whose state has not been compared with the cycle. -/
  unchecked : Nat

structure Detector where
  source : Source
  /-- How many steps pass before states are looked at. -/
  safetyPrefix : Nat
  /-- The threshold of every cycle; zero leaves it to the length of the cycle. -/
  threshold : Nat
  chase : Option Chase
  /-- The steps of this run that repeated a cycle. -/
  replayed : Nat

namespace Chase

def heatPerStep : Nat := 10

/-- Start to repeat a cycle; a threshold of zero is ten for each step. -/
def begin (threshold : Nat) (cycle : Cycle) (hot : List String) : Chase where
  cycle
  hot
  threshold := if threshold = 0 then heatPerStep * cycle.length else threshold
  temperature := 0
  cursor := 0
  unchecked := cycle.start + 1

def violation (c : Chase) : Violation := ⟨c.hot, c.temperature, c.cycle.length⟩

/-- The first step from `unchecked` up to `last` whose state is not on the cycle. -/
def leaves (c : Chase) (observer : Observer) (last : Nat) : Bool :=
  (List.range' c.unchecked (last + 1 - c.unchecked)).any fun step =>
    match observer.snapshotAt? step with
    | some state => !c.cycle.visits state.fingerprint
    | none => false

/-- Compare what has happened up to step `last` with the cycle: `none` gives it up. -/
def advance? (c : Chase) (observer : Observer) (last : Nat) : Option Chase :=
  if c.hot.any fun name => (observer.heatOf name).isCold then none
  else if c.leaves observer last then none
  else some { c with temperature := c.temperature + 1, unchecked := max c.unchecked (last + 1) }

/-- On to the next choice of the cycle. -/
def step (c : Chase) : Chase := { c with cursor := (c.cursor + 1) % max c.cycle.length 1 }

/-- From the first choice of the cycle again, for a new run. -/
def rewind (c : Chase) : Chase := { c with cursor := 0, unchecked := c.cycle.start + 1 }

end Chase

namespace Detector

def new (seed : UInt64) (safetyPrefix threshold : Nat) : Detector :=
  ⟨.ofSeed seed, safetyPrefix, threshold, none, 0⟩

/-- How many earlier occurrences are tried when the cycle from the last one is unfair. -/
def maxRetries : Nat := 3

/-- What has happened since an occurrence. -/
def cycleFrom (scene : Scene) (occurrences : Occurrences) (pick : Nat) : Cycle :=
  Cycle.collect scene.trace scene.observer ((occurrences.get? pick).getD 0 + 1)

/-- Draw an occurrence and take the cycle from there, until one is fair. Of three occurrences and
more the last two are not drawn. -/
def retry (scene : Scene) (occurrences : Occurrences) : Nat → Source → Option Cycle × Source
  | 0, source => (none, source)
  | n + 1, source =>
    let (pick, source) :=
      if 2 < occurrences.count then source.below (occurrences.count - 2) else (0, source)
    let cycle := cycleFrom scene occurrences pick
    if cycle.isFair then (some cycle, source) else retry scene occurrences n source

/-- A fair cycle that ends here, where a state occurs that occurred at the given steps, the last of
them the present one. -/
def fairCycle (scene : Scene) (occurrences : Occurrences) (source : Source) :
    Option Cycle × Source :=
  let cycle := cycleFrom scene occurrences (occurrences.count - 2)
  if cycle.isFair then (some cycle, source)
  else retry scene occurrences (min (occurrences.count - 1) maxRetries) source

/-- Look for a cycle to repeat, unless one is being repeated. -/
def seek (scene : Scene) (fingerprint : UInt64) (d : Detector) : Detector :=
  if d.chase.isSome then d
  else
    let occurrences := scene.observer.occurrences fingerprint
    if occurrences.count < 2 then d
    else
      let (cycle, source) := fairCycle scene occurrences d.source
      let d := { d with source }
      match cycle with
      | none => d
      | some cycle =>
        let hot := cycle.hotMonitors
        if hot.isEmpty then d else { d with chase := some (.begin d.threshold cycle hot) }

/-- Let the temperature rise; at the threshold the violation is confirmed and the cycle dropped. -/
def heatUp (observer : Observer) (last : Nat) (d : Detector) : Option Violation × Detector :=
  match d.chase.bind fun c => c.advance? observer last with
  | none => (none, { d with chase := none })
  | some c =>
    if c.temperature < c.threshold then (none, { d with chase := some c })
    else (some c.violation, { d with chase := none })

/-- Take the snapshot of the last step and check it. The steps counted are those of the run. -/
def observe (steps : Nat) (scene : Scene) (d : Detector) :
    Option Violation × Detector × Observer :=
  match scene.trace.last? with
  | none => (none, d, scene.observer)
  | some (last, _) =>
    if steps < d.safetyPrefix then (none, d, scene.observer)
    else
      let (sighting, observer) := scene.observer.capture Element.digest last scene.units
      let scene := { scene with observer }
      let d := if sighting.repeated then d.seek scene sighting.fingerprint else d
      let (violation, d) := d.heatUp observer last
      (violation, d, observer)

/-- The next choice of the cycle, where it fits the request; else the cycle is given up. -/
def followCycle (r : Request) (d : Detector) : Verdict r.Reply × Detector :=
  match d.chase with
  | none => (.forward, d)
  | some c =>
    match (c.cycle[c.cursor]?).bind fun step => r.accept? step.choice with
    | some value => (.reply value, { d with chase := some c.step, replayed := d.replayed + 1 })
    | none => (.forward, { d with chase := none })

/-- What the detector does with a request; `below` is the number of steps decided below it. -/
def consult (r : Request) (below : Nat) (scene : Scene) (d : Detector) :
    Verdict r.Reply × Detector × Observer :=
  match d.observe (below + d.replayed) scene with
  | (some violation, d, observer) => (.refuse (.liveness violation), d, observer)
  | (none, d, observer) =>
    let (verdict, d) := d.followCycle r
    (verdict, d, observer)

def prepare (d : Detector) : Detector :=
  { d with replayed := 0, chase := d.chase.map Chase.rewind }

/-- The cycle is kept, and so is the place up to which it has been compared. -/
def reset (d : Detector) : Detector :=
  { d with replayed := 0, chase := d.chase.map fun c => { c with cursor := 0 } }

end Detector

/-- A strategy with the liveness check over it. -/
structure Watched (σ : Type) where
  detector : Detector
  base : σ

namespace Watched

def answer {σ : Type} (S : Strategy σ) (r : Request) (scene : Scene) (s : Watched σ) :
    Answer (Watched σ) r.Reply :=
  match s.detector.consult r (S.steps s.base) scene with
  | (.refuse refusal, detector, observer) => ⟨.error refusal, { s with detector }, observer⟩
  | (.reply value, detector, observer) => ⟨.ok value, { s with detector }, observer⟩
  | (.forward, detector, observer) =>
    let a := S.answer r { scene with observer } s.base
    ⟨a.result, ⟨detector, a.state⟩, a.observer⟩

/-- The strategy below closes its run in any case; a cycle that is being repeated is repeated from
its first choice in the next run. -/
def prepare {σ : Type} (S : Strategy σ) (s : Watched σ) : Bool × Watched σ :=
  let (continues, base) := S.prepare s.base
  (continues, ⟨s.detector.prepare, base⟩)

def strategy {σ : Type} (S : Strategy σ) : Strategy (Watched σ) where
  answer := answer S
  prepare := prepare S
  reset s := ⟨s.detector.reset, S.reset s.base⟩
  steps s := S.steps s.base + s.detector.replayed
  atBound s := s.detector.chase.isNone && S.atBound s.base
  isFair s := s.detector.chase.isSome || S.isFair s.base
  description s := "cycle detection over " ++ S.description s.base

end Watched
end Interleave
