import Interleave.Strategy.Backtrack
import Interleave.Strategy.Basic
import Interleave.Strategy.PartialOrder.Clock
import Interleave.Strategy.PartialOrder.SlotSet

/-!
# Interleave.Strategy.PartialOrder

Schedules up to the order of independent steps. Two steps are independent when they are by one
unit, or by units that declare different targets. A step races with an earlier one that it depends
on and that nothing in between orders before it; then the unit is also tried where the earlier step
was chosen, or, if it was not enabled there, every unit that was. Depth-first search tries at each
scheduling point the units so marked only; values are tried all.

Units are known by slots, given in the order of first appearance and kept until a reset.
-/

namespace Interleave

/-- A scheduling point: the units enabled there, those to try and those tried, and the one taken. -/
structure Branch where
  enabled : SlotSet
  toTry : SlotSet
  tried : SlotSet
  chosen : Nat
deriving DecidableEq, Repr

/-- A choice on the path: a scheduling point or a value. -/
inductive Fork
  | branch (b : Branch)
  | value (count chosen : UInt64)
deriving DecidableEq, Repr

def Fork.next? : Fork → Option Fork
  | .branch b =>
    (b.toTry.difference b.tried).first?.map fun slot => .branch { b with chosen := slot }
  | .value count chosen => if chosen + 1 < count then some (.value count (chosen + 1)) else none

/-- A scheduling step as it was made: whose, on which target, and what lies at or before it. -/
structure Event where
  slot : Nat
  target : Option UnitId
  clock : Clock
deriving Repr

namespace Event

/-- Whether the order of an event and a step of a slot may matter. -/
def dependsOn (e : Event) (slot : Nat) (target : Option UnitId) : Bool :=
  e.slot != slot &&
    match e.target, target with
    | some a, some b => a == b
    | _, _ => true

/-- Whether an event races with a step that is made from the clock `pre` of its unit. -/
def racesWith (e : Event) (slot : Nat) (target : Option UnitId) (pre : Clock) : Bool :=
  e.dependsOn slot target && !e.clock.dominatedBy pre

end Event

/-- A choice made in this run; a scheduling point goes with its step. -/
inductive Visit
  | step (b : Branch) (e : Event)
  | value (count chosen : UInt64)
deriving Repr

namespace Visit

def fork : Visit → Fork
  | step b _ => .branch b
  | value count chosen => .value count chosen

/-- The step made here, if a step of a slot depends on it. -/
def eventBefore? (slot : Nat) (target : Option UnitId) : Visit → Option Event
  | step _ e => if e.dependsOn slot target then some e else none
  | value _ _ => none

end Visit

/-- Mark the racing unit, or all units where it was not enabled. -/
def Branch.widen (slot : Nat) (b : Branch) : Branch :=
  if b.enabled.contains slot then { b with toTry := b.toTry.insert slot }
  else { b with toTry := b.toTry.union b.enabled }

/-- A unit that has a slot, with the clock of its last step in this run. -/
structure Tracked where
  unit : UnitId
  clock : Clock
deriving Repr

structure PartialOrder where
  bound : Nat
  /-- The units by slot. -/
  tracked : List Tracked
  /-- The choices made in this run, the deepest first. -/
  passed : List Visit
  /-- The choices of the path that this run has still to follow. -/
  ahead : List Fork
  /-- How many choices this run has made. -/
  depth : Nat
  /-- How many runs are closed. -/
  explored : Nat
  /-- How many races have been found. -/
  races : Nat
  maxDepth : Nat
deriving Repr

namespace PartialOrder

def new (bound : Nat) : PartialOrder := ⟨bound, [], [], [], 0, 0, 0, 0⟩

def slotOf? (s : PartialOrder) (unit : UnitId) : Option Nat :=
  s.tracked.findIdx? fun t => t.unit == unit

/-- Give a unit a slot, unless it has one; `none` when all slots are taken. -/
def track? (s : PartialOrder) (unit : UnitId) : Option (Nat × PartialOrder) :=
  match s.slotOf? unit with
  | some slot => some (slot, s)
  | none =>
    if maxSlots ≤ s.tracked.length then none
    else some (s.tracked.length, { s with tracked := s.tracked ++ [⟨unit, .zero⟩] })

/-- The slots of units, given where needed; the set is missing when a unit gets no slot. -/
def trackAll (s : PartialOrder) (found : SlotSet) : List UnitId → Option SlotSet × PartialOrder
  | [] => (some found, s)
  | unit :: rest =>
    match s.track? unit with
    | none => (none, s)
    | some (slot, s) => s.trackAll (found.insert slot) rest

/-- Widen each scheduling point whose step races with one of a slot. -/
def widenRacing (slot : Nat) (target : Option UnitId) (pre : Clock) (passed : List Visit) :
    List Visit :=
  passed.map fun
    | .step b e => .step (if e.racesWith slot target pre then b.widen slot else b) e
    | v => v

/-- Make a step of a slot: join the clocks of the events it depends on, mark the races, and put the
step on the path. -/
def commit (b : Branch) (target : Option UnitId) (ahead : List Fork) (s : PartialOrder) :
    PartialOrder :=
  let slot := b.chosen
  let pre := (s.tracked[slot]?.map (·.clock)).getD .zero
  let before := s.passed.filterMap (Visit.eventBefore? slot target)
  let clock := (before.foldl (fun c e => c.merge e.clock) pre).tick slot
  let races := before.countP fun e => !e.clock.dominatedBy pre
  let passed := if races = 0 then s.passed else widenRacing slot target pre s.passed
  { s with
    tracked := s.tracked.modify slot fun t => { t with clock }
    passed := .step { b with tried := b.tried.insert slot } ⟨slot, target, clock⟩ :: passed
    ahead
    depth := s.depth + 1
    races := s.races + races
    maxDepth := max s.maxDepth (s.depth + 1) }

/-- The scheduling point here: the one on the path, or a new one that tries the lowest slot. -/
def branchHere (enabled : SlotSet) (s : PartialOrder) : Option (Branch × List Fork) :=
  match s.ahead with
  | [] =>
    let first := enabled.first?.getD 0
    some (⟨enabled, SlotSet.empty.insert first, .empty, first⟩, [])
  | .branch b :: ahead => if b.enabled = enabled then some (b, ahead) else none
  | .value _ _ :: _ => none

/-- The target that a unit declares among the candidates. -/
def targetOf (candidates : List Candidate) (unit : UnitId) : Option UnitId :=
  ((candidates.find? fun c => c.id == unit).bind (·.pending)).map (·.target)

def visitUnit (candidates : List Candidate) (s : PartialOrder) :
    Except Refusal UnitId × PartialOrder :=
  match s.trackAll .empty (enabledIds candidates) with
  | (none, s) => (.error .exhausted, s)
  | (some enabled, s) =>
    if (enabledIds candidates).isEmpty then (.error .noEnabledChoice, s)
    else
      match s.branchHere enabled with
      | none => (.error (.diverged s.depth .otherUnits), s)
      | some (b, ahead) =>
        match s.tracked[b.chosen]? with
        | none => (.error .exhausted, s)
        | some t => (.ok t.unit, s.commit b (targetOf candidates t.unit) ahead)

/-- The value taken here: the one on the path, or the first. -/
def visitValue (count : UInt64) (s : PartialOrder) : Except Refusal UInt64 × PartialOrder :=
  let pass (chosen : UInt64) (ahead : List Fork) : PartialOrder :=
    { s with
      passed := .value count chosen :: s.passed
      ahead
      depth := s.depth + 1
      maxDepth := max s.maxDepth (s.depth + 1) }
  match s.ahead with
  | [] => (.ok 0, pass 0 [])
  | .value recorded chosen :: ahead =>
    if recorded = count then (.ok chosen, pass chosen ahead)
    else (.error (.diverged s.depth .otherRequest), s)
  | .branch _ :: _ => (.error (.diverged s.depth .otherRequest), s)

def reply : (r : Request) → PartialOrder → Except Refusal r.Reply × PartialOrder
  | .unit candidates _, s => s.visitUnit candidates
  | .boolean _, s =>
    let (chosen, s) := s.visitValue 2
    (chosen.map fun n => n == 1, s)
  | .integer max, s => s.visitValue (alternativesOf max)

def prepare (s : PartialOrder) : Bool × PartialOrder :=
  let path := backtrack Fork.next? (s.passed.map Visit.fork)
  (!path.isEmpty,
   { s with
     tracked := s.tracked.map fun t => { t with clock := .zero }
     passed := []
     ahead := path.reverse
     depth := 0
     explored := s.explored + 1 })

def strategy : Strategy PartialOrder where
  answer r scene s := .blind scene (reply r s)
  prepare := prepare
  reset s := new s.bound
  steps s := s.depth
  atBound s := boundReached s.bound s.depth
  isFair _ := false
  description _ := "dpor"

end PartialOrder
end Interleave
