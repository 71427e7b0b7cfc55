import Interleave.Strategy.Basic

/-!
# Interleave.Strategy.Replay

Following a recorded trace to the letter. A request that the next recorded choice does not fit, or
that comes after the last one, is a divergence.
-/

namespace Interleave

structure Replay where
  trace : Trace
  fair : Bool
  cursor : Nat
deriving DecidableEq, Repr

namespace Replay

def new (trace : Trace) (fair : Bool) : Replay := ⟨trace, fair, 0⟩

/-- Why a recorded choice does not serve a request. -/
def mismatch : Request → Choice → Mismatch
  | .unit _ _, .unit u => .notEnabled u
  | .unit _ _, _ => .notScheduling
  | .boolean _, .unit _ => .notNondeterministic
  | .boolean _, _ => .notBoolean
  | .integer _, .boolean _ => .notInteger
  | .integer _, _ => .notNondeterministic

/-- The reply recorded for this step, or why there is none. -/
def recorded (r : Request) (s : Replay) : Except Mismatch r.Reply :=
  match s.trace.get? s.cursor with
  | none => .error .traceEnded
  | some c =>
    match r.accept? c with
    | some value => .ok value
    | none => .error (mismatch r c)

def reply (r : Request) (s : Replay) : Except Refusal r.Reply × Replay :=
  if r.nothingEnabled then (.error .noEnabledChoice, s)
  else
    match s.recorded r with
    | .ok value => (.ok value, { s with cursor := s.cursor + 1 })
    | .error reason => (.error (.diverged s.cursor reason), s)

def strategy : Strategy Replay where
  answer r scene s := .blind scene (reply r s)
  prepare s := (true, { s with cursor := 0 })
  reset s := { s with cursor := 0 }
  steps s := s.cursor
  atBound s := !s.trace.isEmpty && decide (s.trace.length ≤ s.cursor)
  isFair s := s.fair
  description s := "replay (" ++ toString s.trace.length ++ " steps)"

end Replay
end Interleave
