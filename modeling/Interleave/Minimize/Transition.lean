import Interleave.Minimize.Bisection
import Interleave.Strategy.Replay

/-!
# Interleave.Minimize.Transition

The search for the transition of a recorded run after which a bug is bound to happen. A run follows
the trace for as many steps as the bisection says and then leaves the rest to a suffix strategy;
where the program does not follow, the suffix takes over at once. Without a suffix the whole trace
is followed, and a request it does not fit is a divergence.
-/

namespace Interleave

structure Transition where
  trace : Trace
  traceFair : Bool
  bisection : Bisection
  /-- The steps of this run that followed the trace. -/
  followed : Nat
  /-- The runs closed at the current length, and how many there are to be. -/
  walks : Nat
  maxWalks : Nat
  /-- How long a run may get. -/
  stepLimit : Nat
  /-- Whether this run still follows the trace. -/
  following : Bool
deriving DecidableEq, Repr

namespace Transition

/-- A run may be longer than the trace by the bound of a fair run, or, if that bound does not exceed
the length of the trace, five times as long as the trace. -/
def limitFor (fairBound length : Nat) : Nat :=
  if length < fairBound then fairBound + length else 5 * length

/-- The limit, in 64 bits. -/
def limit? (fairBound length : Nat) : Except Overflow Nat :=
  if length < fairBound then Checked.add fairBound length else Checked.multiply 5 length

def new (trace : Trace) (traceFair : Bool) (fairBound maxWalks : Nat) : Transition where
  trace
  traceFair
  bisection := .new trace.length
  followed := 0
  walks := 0
  maxWalks := max maxWalks 1
  stepLimit := limitFor fairBound trace.length
  following := true

/-- As `new`, unless the limit overflows. -/
def make (trace : Trace) (traceFair : Bool) (fairBound maxWalks : Nat) :
    Except Overflow Transition := do
  let stepLimit ← limit? fairBound trace.length
  pure { new trace traceFair fairBound maxWalks with stepLimit }

/-- Why a recorded choice does not serve a request. -/
def mismatch : Request → Choice → Mismatch
  | .unit _ _, .unit u => .notEnabled u
  | .unit _ _, _ => .notScheduling
  | .boolean _, _ => .notBoolean
  | .integer _, _ => .notInteger

/-- The reply recorded for this step, or why there is none. -/
def recorded (r : Request) (t : Transition) : Except Mismatch r.Reply :=
  match t.trace.get? t.followed with
  | none => .error .traceEnded
  | some c =>
    match r.accept? c with
    | some value => .ok value
    | none => .error (mismatch r c)

/-- Follow the trace, where there is a suffix to leave a request to. -/
def consult (r : Request) (t : Transition) : Verdict r.Reply × Transition :=
  if t.following && decide (t.followed < t.bisection.current) then
    if r.nothingEnabled then (.refuse .noEnabledChoice, t)
    else
      match t.recorded r with
      | .ok value => (.reply value, { t with followed := t.followed + 1 })
      | .error _ => (.forward, { t with following := false })
  else (.forward, t)

/-- Follow the trace to its end, where there is no suffix. -/
def reply (r : Request) (t : Transition) : Except Refusal r.Reply × Transition :=
  if r.nothingEnabled then (.error .noEnabledChoice, t)
  else
    match t.recorded r with
    | .ok value => (.ok value, { t with followed := t.followed + 1 })
    | .error reason => (.error (.diverged t.followed reason), t)

/-- Search between two lengths, neither beyond the trace on the right. -/
def setBounds (left right : Nat) (t : Transition) : Transition :=
  { t with bisection := t.bisection.set left (min right t.trace.length) }

/-- Take note of whether every run at the current length showed the bug; false when the search is
over. -/
def updateBounds (found : Bool) (t : Transition) : Bool × Transition :=
  let (more, bisection) := t.bisection.update found
  (more, { t with bisection, walks := 0 })

/-- As `updateBounds` where there is no suffix: the whole trace is the only length. -/
def close (found : Bool) (t : Transition) : Bool × Transition :=
  (false, { t with bisection := t.bisection.closeAt t.trace.length found, walks := 0 })

def beginRun (t : Transition) : Transition := { t with followed := 0, following := true }

def countWalk (t : Transition) : Transition := { t.beginRun with walks := t.walks + 1 }

/-- Whether another run at the current length is due. -/
def wantsWalk (t : Transition) : Bool := decide (t.walks < t.maxWalks)

def describe (suffix : String) : String :=
  "Critical transition finding with suffix strategy (" ++ suffix ++ ")"

/-- The whole trace, without a suffix. -/
def strategy : Strategy Transition where
  answer r scene t := .blind scene (reply r t)
  prepare t := (t.countWalk.wantsWalk, t.countWalk)
  reset t := t.beginRun
  steps t := t.followed
  atBound t := decide (t.stepLimit < t.followed)
  isFair t := t.traceFair
  description _ := describe "none"

end Transition

/-- The search with a suffix. -/
structure Forked (σ : Type) where
  transition : Transition
  suffix : σ

namespace Forked

def answer {σ : Type} (S : Strategy σ) (r : Request) (scene : Scene) (s : Forked σ) :
    Answer (Forked σ) r.Reply :=
  match s.transition.consult r with
  | (.refuse refusal, transition) => ⟨.error refusal, { s with transition }, scene.observer⟩
  | (.reply value, transition) => ⟨.ok value, { s with transition }, scene.observer⟩
  | (.forward, transition) =>
    let a := S.answer r scene s.suffix
    ⟨a.result, ⟨transition, a.state⟩, a.observer⟩

def prepare {σ : Type} (S : Strategy σ) (s : Forked σ) : Bool × Forked σ :=
  let (continues, suffix) := S.prepare s.suffix
  (continues && s.transition.countWalk.wantsWalk, ⟨s.transition.countWalk, suffix⟩)

def steps {σ : Type} (S : Strategy σ) (s : Forked σ) : Nat :=
  s.transition.followed + S.steps s.suffix

def strategy {σ : Type} (S : Strategy σ) : Strategy (Forked σ) where
  answer := answer S
  prepare := prepare S
  reset s := ⟨s.transition.beginRun, S.reset s.suffix⟩
  steps := steps S
  atBound s := decide (s.transition.stepLimit < steps S s)
  isFair s := S.isFair s.suffix
  description s := Transition.describe (S.description s.suffix)

end Forked
end Interleave
