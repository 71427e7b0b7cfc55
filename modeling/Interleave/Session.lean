import Interleave.Iterate
import Interleave.Program
import Interleave.Report

/-!
# Interleave.Session

One run of a program under a strategy. `Session.round` schedules one unit; the run ends when no unit
is enabled, when the strategy has got as far as it may, or when it is halted by a bug or a
divergence. After a halt nothing more is asked of the strategy. `run` repeats rounds up to a given
number of them.
-/

namespace Interleave

structure Bug where
  kind : BugKind
  message : String
deriving DecidableEq, Repr

/-- How a run ends. -/
inductive Ending
  /-- No unit is enabled. -/
  | quiescent
  /-- The strategy is at its bound or has no more to try. -/
  | stepBound
  | halted
deriving DecidableEq, Repr

def Ending.name : Ending → String
  | quiescent => "Quiescent"
  | stepBound => "StepBound"
  | halted => "Halted"

/-- What one run has shown. -/
structure Outcome where
  bug : Option Bug
  trace : Trace
  /-- The steps as the strategy counts them. -/
  steps : Nat
  fair : Bool
  coverage : Coverage
  narrative : List String
  ending : Ending
  divergence : Option (Nat × Mismatch)

/-- A run in progress under a strategy with state `τ`. -/
structure Session (τ : Type) where
  strategy : τ
  trace : Trace
  observer : Observer
  /-- The units at the last scheduling point. -/
  offered : List Candidate
  halted : Bool
  bug : Option Bug
  divergence : Option (Nat × Mismatch)
  /-- The lines of the narrative so far. -/
  narrative : Array String
  machines : Table UnitId (Collection String)
  monitors : StatesByName

namespace Session

variable {τ : Type}

def new (strategy : τ) : Session τ where
  strategy
  trace := .empty
  observer := .empty
  offered := []
  halted := false
  bug := none
  divergence := none
  narrative := #[]
  machines := ∅
  monitors := ∅

def say (line : String) (s : Session τ) : Session τ := { s with narrative := s.narrative.push line }

def scene (s : Session τ) : Scene := ⟨s.trace, s.offered, s.observer⟩

/-- Halt the run; the first bug is kept. -/
def recordBug (kind : BugKind) (message : String) (s : Session τ) : Session τ :=
  match s.bug with
  | some _ => { s with halted := true }
  | none => { s.say ("<ErrorLog> " ++ message) with halted := true, bug := some ⟨kind, message⟩ }

/-- Halt the run because the strategy refused to answer. -/
def fail (refusal : Refusal) (s : Session τ) : Session τ :=
  match refusal with
  | .noEnabledChoice => { s with halted := true }
  | .exhausted => { s with halted := true }
  | .diverged step reason =>
    { s with divergence := some (step, reason) }.recordBug .divergence refusal.message
  | .liveness violation => s.recordBug .liveness violation.message

/-- Put a request to the strategy. -/
def request (S : Strategy τ) (r : Request) (s : Session τ) : Except Refusal r.Reply × Session τ :=
  let a := S.answer r s.scene s.strategy
  (a.result, { s with strategy := a.state, observer := a.observer })

/-- Put a question of the program to the strategy; the units are still those of the last scheduling
point. -/
def ask (S : Strategy τ) (q : Question) (s : Session τ) :
    Option q.request.Reply × Session τ :=
  if s.halted then (none, s)
  else
    match s.request S q.request with
    | (.ok value, s) => (some value, { s with trace := s.trace.push (q.choice value) })
    | (.error refusal, s) => (none, s.fail refusal)

/-- A check that does not hold is a bug; true when the run goes on. -/
def check (holds : Bool) (message : String) (s : Session τ) : Bool × Session τ :=
  if s.halted then (false, s)
  else if holds then (true, s)
  else (false, s.recordBug .safety message)

/-- Count a state of a machine as visited. -/
def visit (unit : UnitId) (state : String) (s : Session τ) : Session τ :=
  { s with
    machines := s.machines.update unit fun states => Collection.insert (states.getD ∅) state }

/-- Take note of what the program tells, also after a halt. -/
def tell (n : Notice) (s : Session τ) : Session τ :=
  let s := { s with observer := s.observer.note Element.digest n }
  match n with
  | .enter unit state =>
    (s.visit unit state).say ("<StateLog> " ++ unit.text ++ " enters state '" ++ state ++ "'")
  | .exit unit state => s.say ("<StateLog> " ++ unit.text ++ " exits state '" ++ state ++ "'")
  | .localHash _ _ => s
  | .monitor name state heat =>
    { s with monitors := s.monitors.record name state }.say
      ("<MonitorLog> " ++ name ++ " enters " ++ heat.text ++ " state '" ++ state ++ "'")
  | .heat _ _ => s
  | .log line => s.say line

end Session

/-- How a handler ends. -/
inductive Return (σ : Type)
  | finished (state : σ)
  | aborted (state : σ)
  | panicked (message : String)

/-- Carry out a handler in a session. -/
def Handler.run {σ τ : Type} (S : Strategy τ) : Handler σ → Session τ → Return σ × Session τ
  | .finish state, s => (.finished state, s)
  | .abort state, s => (.aborted state, s)
  | .panic message, s => (.panicked message, s)
  | .ask question next, s =>
    let (answer, s) := s.ask S question
    (next answer).run S s
  | .check holds message next, s =>
    let (goesOn, s) := s.check holds message
    (next goesOn).run S s
  | .tell notice next, s => next.run S (s.tell notice)

/-- How a run is left: ended with the program in a state, or by a panic. -/
inductive Stop (σ : Type)
  | ended (ending : Ending) (state : σ)
  | panicked (message : String)

namespace Session

variable {σ τ : Type}

/-- Go on after a handler, unless it aborted or panicked. -/
def afterHandler : Return σ × Session τ → (σ × Session τ) ⊕ (Stop σ × Session τ)
  | (.finished state, s) => .inl (state, s)
  | (.aborted state, s) => .inr (.ended .halted state, s)
  | (.panicked message, s) => .inr (.panicked message, s)

/-- Schedule one unit: ask the strategy which, and let the program execute it. -/
def round (S : Strategy τ) (P : Program σ) :
    σ × Session τ → (σ × Session τ) ⊕ (Stop σ × Session τ)
  | (p, s) =>
    if s.halted then .inr (.ended .halted p, s)
    else
      let units := P.units p
      if (enabledIds units).isEmpty then .inr (.ended .quiescent p, s)
      else if S.atBound s.strategy then .inr (.ended .stepBound p, s)
      else
        match { s with offered := units }.request S (.unit units (P.current p)) with
        | (.error .noEnabledChoice, s) => .inr (.ended .quiescent p, s)
        | (.error .exhausted, s) => .inr (.ended .stepBound p, s)
        | (.error refusal, s) => .inr (.ended .halted p, s.fail refusal)
        | (.ok unit, s) =>
          let s := { s with trace := s.trace.push (.unit unit) }.say
            ("<ScheduleLog> Schedule '" ++ P.label p unit ++ "'")
          afterHandler ((P.execute unit p).run S s)

/-- Start the program and schedule units until the run ends; `none` when that takes more than
`fuel` rounds. -/
def drive (fuel : Nat) (S : Strategy τ) (P : Program σ) (strategy : τ) :
    Option (Stop σ × Session τ) :=
  match afterHandler ((P.start P.fresh).run S (.new strategy)) with
  | .inr stop => some stop
  | .inl begun => iterate (fun at_ => some (round S P at_)) fuel begun

/-- The states visited, with machines under their labels. -/
def coverage (P : Program σ) (p : σ) (s : Session τ) : Coverage where
  machines := s.machines.entries.foldl (fun t (unit, states) =>
    states.toList.foldl (fun t state => t.record (P.label p unit) state) t) ∅
  monitors := s.monitors

/-- Look for monitors that are hot although the program has come to rest, if the strategy is fair
and nothing else went wrong. -/
def checkRest (fair : Bool) (P : Program σ) (p : σ) (ending : Ending) (s : Session τ) : Session τ :=
  if s.bug.isNone && ending == .quiescent && fair && !(P.hotMonitors p).isEmpty then
    s.recordBug .hotAtRest
      (quotedNames (P.hotMonitors p) ++
        " detected liveness bug in hot state at the end of program execution")
  else s

/-- What an ended run has shown. -/
def outcome (S : Strategy τ) (P : Program σ) (p : σ) (ending : Ending) (s : Session τ) : Outcome :=
  let fair := S.isFair s.strategy
  let s := s.checkRest fair P p ending
  { bug := s.bug
    trace := s.trace
    steps := S.steps s.strategy
    fair
    coverage := s.coverage P p
    narrative := s.narrative.toList
    ending
    divergence := s.divergence }

end Session

/-- One run of a fresh copy of a program: what it has shown or the message of its panic, and the
strategy as it is left. -/
def Program.run {σ τ : Type} (fuel : Nat) (S : Strategy τ) (P : Program σ) (strategy : τ) :
    Option (Except String Outcome × τ) :=
  (Session.drive fuel S P strategy).map fun
    | (.ended ending p, s) => (.ok (s.outcome S P p ending), s.strategy)
    | (.panicked message, s) => (.error message, s.strategy)

end Interleave
