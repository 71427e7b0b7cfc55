import Interleave.Fault
import Interleave.Liveness.Detector
import Interleave.Minimize.Transition
import Interleave.Strategy.DepthFirst
import Interleave.Strategy.PartialOrder
import Interleave.Strategy.Random
import Interleave.Strategy.Replay
import Interleave.Strategy.Scripted

/-!
# Interleave.Strategy.Plan

How strategies are put together. A `Plan` names a strategy and those under it; `Plan.State` is what
the strategy keeps, `Plan.strategy` how it decides and `Plan.start` how it begins. `Plan.make` is
how that state is made, which fails where a limit overflows. A configuration selects a plan; the
number drawn for it when it has no seed is a parameter.
-/

namespace Interleave

inductive Plan
  | random (seed : UInt64) (bound : Nat)
  | depthFirst (bound : Nat)
  | partialOrder (bound : Nat)
  | replay (trace : Trace) (fair : Bool)
  | scripted (script : Scripted)
  /-- The liveness check over a plan. -/
  | watch (seed : UInt64) (safetyPrefix threshold : Nat) (base : Plan)
  /-- The search for a critical transition with a plan for the suffix. -/
  | transition (trace : Trace) (fair : Bool) (fairBound maxWalks : Nat) (suffix : Plan)
  /-- The search for a critical transition without a suffix. -/
  | wholeTrace (trace : Trace) (fair : Bool) (fairBound maxWalks : Nat)

namespace Plan

@[reducible] def State : Plan → Type
  | random _ _ => RandomWalk
  | depthFirst _ => DepthFirst
  | partialOrder _ => PartialOrder
  | replay _ _ => Replay
  | scripted _ => Scripted
  | watch _ _ _ base => Watched base.State
  | transition _ _ _ _ suffix => Forked suffix.State
  | wholeTrace _ _ _ _ => Transition

def strategy : (p : Plan) → Strategy p.State
  | random _ _ => RandomWalk.strategy
  | depthFirst _ => DepthFirst.strategy
  | partialOrder _ => PartialOrder.strategy
  | replay _ _ => Replay.strategy
  | scripted _ => Scripted.strategy
  | watch _ _ _ base => Watched.strategy base.strategy
  | transition _ _ _ _ suffix => Forked.strategy suffix.strategy
  | wholeTrace _ _ _ _ => Transition.strategy

def start : (p : Plan) → p.State
  | random seed bound => .new seed bound
  | depthFirst bound => .new bound
  | partialOrder bound => .new bound
  | replay trace fair => .new trace fair
  | scripted script => script
  | watch seed safetyPrefix threshold base => ⟨.new seed safetyPrefix threshold, base.start⟩
  | transition trace fair fairBound maxWalks suffix =>
    ⟨.new trace fair fairBound maxWalks, suffix.start⟩
  | wholeTrace trace fair fairBound maxWalks => .new trace fair fairBound maxWalks

/-- Make the state that a plan begins in, a suffix before the search over it. -/
def make : (p : Plan) → Except Overflow p.State
  | random seed bound => .ok (.new seed bound)
  | depthFirst bound => .ok (.new bound)
  | partialOrder bound => .ok (.new bound)
  | replay trace fair => .ok (.new trace fair)
  | scripted script => .ok script
  | watch seed safetyPrefix threshold base => do
    let start ← base.make
    pure ⟨.new seed safetyPrefix threshold, start⟩
  | transition trace fair fairBound maxWalks suffix => do
    let start ← suffix.make
    let transition ← Transition.make trace fair fairBound maxWalks
    pure ⟨transition, start⟩
  | wholeTrace trace fair fairBound maxWalks => Transition.make trace fair fairBound maxWalks

end Plan

namespace Configuration

/-- The liveness check over a plan, as configured. -/
def watching (drawn : UInt64) (c : Configuration) (base : Plan) : Plan :=
  .watch (c.seed.getD drawn) c.safetyPrefix.toNat c.temperatureThreshold.toNat base

/-- The plan of the strategy selected, without the liveness check. Random walks are fair and keep
to the fair bound. -/
def basePlan (drawn : UInt64) (c : Configuration) : Except Fault Plan :=
  match c.strategy with
  | .random => .ok (.random (c.seed.getD drawn) (c.stepBound true))
  | .depthFirst => .ok (.depthFirst (c.stepBound false))
  | .partialOrder => .ok (.partialOrder (c.stepBound false))
  | .replay => .error .replayWithoutTrace

def plan (drawn : UInt64) (c : Configuration) : Except Fault Plan :=
  (c.basePlan drawn).map fun base => if c.detectCycles then c.watching drawn base else base

/-- Refuse a configuration that makes no sense. -/
def validate (c : Configuration) : Except Fault Unit := c.check.mapError .invalidConfiguration

/-- The plan of a series of runs. -/
def campaignPlan (drawn : UInt64) (c : Configuration) : Except Fault Plan :=
  c.validate.bind fun _ => c.plan drawn

/-- The search over a trace, with a plan for the suffix or without one. -/
def transitionPlan (c : Configuration) (trace : Trace) (fair : Bool) : Option Plan → Plan
  | some suffix => .transition trace fair c.fairStepBound.toNat c.randomWalks.toNat suffix
  | none => .wholeTrace trace fair c.fairStepBound.toNat c.randomWalks.toNat

/-- The plan of a search over a trace: the strategy selected decides the suffix, and a replay leaves
it without one. -/
def minimizationPlan (drawn : UInt64) (c : Configuration) (trace : Trace) (fair : Bool) :
    Except Fault Plan :=
  c.validate.bind fun _ =>
    match c.strategy with
    | .replay => .ok (c.transitionPlan trace fair none)
    | _ => (c.plan drawn).map fun suffix => c.transitionPlan trace fair (some suffix)

end Configuration
end Interleave
