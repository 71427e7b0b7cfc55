import Interleave.Program

/-!
# Interleave.Program.Script

A small language for programs under test. A script has variables and units; a unit goes through its
list of handlers, one at each execution. `Instruction.run` gives the handler that a list of
instructions stands for.
-/

namespace Interleave
namespace Script

/-- A number, or a variable. -/
inductive Operand
  | constant (value : UInt64)
  | named (name : String)
deriving DecidableEq, Repr

inductive Comparison
  | eq
  | ne
  | lt
  | le
  | gt
  | ge
deriving DecidableEq, Repr

def Comparison.holds : Comparison → UInt64 → UInt64 → Bool
  | eq, a, b => a == b
  | ne, a, b => a != b
  | lt, a, b => decide (a < b)
  | le, a, b => decide (a ≤ b)
  | gt, a, b => decide (b < a)
  | ge, a, b => decide (b ≤ a)

inductive Condition
  | constant (value : Bool)
  | all (conditions : List Condition)
  | any (conditions : List Condition)
  | not (condition : Condition)
  | compare (comparison : Comparison) (a b : Operand)

inductive Instruction
  | tell (notice : Notice)
  | localHash (unit : UnitId) (hash : Operand)
  | boolean (max : Operand) (target : String)
  | fairBoolean (id target : String)
  | integer (max : Operand) (target : String)
  | set (target : String) (value : Operand)
  | add (target : String) (value : Operand)
  | sub (target : String) (value : Operand)
  | check (condition : Condition) (message : String)
  | branch (condition : Condition) (yes no : List Instruction)
  /-- Put a monitor on the list of hot ones, or take it off. -/
  | hot (name : String) (value : Bool)
  | goto (unit : UnitId) (position : Nat)
  /-- Run a list and go on after a halt; the target says whether there was one. -/
  | attempt (body : List Instruction) (target : String)
  | halt
  | panic (message : String)

/-- What a unit does when it is executed at one position, when it can be, and what it declares. -/
structure Station where
  body : List Instruction
  enabledWhen : Condition
  pending : Option Operation

structure UnitScript where
  id : UnitId
  label : Option String
  inbox : Bool
  /-- After the last station comes the first again. -/
  loop : Bool
  stations : List Station

/-- A program in the language. -/
structure Scenario where
  values : List (String × UInt64)
  start : List Instruction
  units : List UnitScript

/-- The state of a script: the values of its variables, the position of each unit that has moved,
and the hot monitors. -/
structure State where
  values : List (String × UInt64)
  positions : List (UnitId × Nat)
  hot : List String
deriving DecidableEq, Repr

namespace State

/-- A variable that was never set is zero. -/
def get (s : State) (name : String) : UInt64 := (s.values.lookup name).getD 0

def set (name : String) (value : UInt64) (s : State) : State :=
  { s with values := (name, value) :: s.values.filter fun entry => entry.1 != name }

/-- A unit that has not moved is at its first station. -/
def position (s : State) (unit : UnitId) : Nat := (s.positions.lookup unit).getD 0

def moveTo (unit : UnitId) (position : Nat) (s : State) : State :=
  { s with positions := (unit, position) :: s.positions.filter fun entry => entry.1 != unit }

def setHot (name : String) (value : Bool) (s : State) : State :=
  if value then if name ∈ s.hot then s else { s with hot := s.hot ++ [name] }
  else { s with hot := s.hot.filter (· != name) }

end State

def Operand.eval (s : State) : Operand → UInt64
  | constant value => value
  | .named name => s.get name

mutual

def Condition.eval (s : State) : Condition → Bool
  | .constant value => value
  | .all conditions => Condition.evalAll s conditions
  | .any conditions => Condition.evalAny s conditions
  | .not condition => !condition.eval s
  | .compare comparison a b => comparison.holds (a.eval s) (b.eval s)

def Condition.evalAll (s : State) : List Condition → Bool
  | [] => true
  | condition :: rest => condition.eval s && Condition.evalAll s rest

def Condition.evalAny (s : State) : List Condition → Bool
  | [] => false
  | condition :: rest => condition.eval s || Condition.evalAny s rest

end

/-- Go on with a reply, or as after a halt where it is missing. -/
def received {α : Type} (state : State) (next : α → Handler State)
    (halted : State → Handler State) : Option α → Handler State
  | some value => next value
  | none => halted state

mutual

/-- What an instruction does from a state, then going on by `next`, or by `halted` where it
halts. -/
def Instruction.run (state : State) (next halted : State → Handler State) :
    Instruction → Handler State
  | .tell notice => .tell notice (next state)
  | .localHash unit hash => .tell (.localHash unit (hash.eval state)) (next state)
  | .boolean max target =>
    .ask (.boolean (max.eval state))
      (received state (fun (b : Bool) => next (state.set target (if b then 1 else 0))) halted)
  | .fairBoolean id target =>
    .ask (.fairBoolean id)
      (received state (fun (b : Bool) => next (state.set target (if b then 1 else 0))) halted)
  | .integer max target =>
    .ask (.integer (max.eval state))
      (received state (fun (n : UInt64) => next (state.set target n)) halted)
  | .set target value => next (state.set target (value.eval state))
  | .add target value => next (state.set target (state.get target + value.eval state))
  | .sub target value => next (state.set target (state.get target - value.eval state))
  | .check condition message =>
    .check (condition.eval state) message fun goesOn => if goesOn then next state else halted state
  | .branch condition yes no =>
    if condition.eval state then runAll state next halted yes else runAll state next halted no
  | .hot name value => next (state.setHot name value)
  | .goto unit position => next (state.moveTo unit position)
  | .attempt body target =>
    runAll state (fun state => next (state.set target 0))
      (fun state => next (state.set target 1)) body
  | .halt => halted state
  | .panic message => .panic message

/-- The instructions of a list in order, up to one that halts. -/
def runAll (state : State) (next halted : State → Handler State) :
    List Instruction → Handler State
  | [] => next state
  | instruction :: rest =>
    instruction.run state (fun state => runAll state next halted rest) halted

end

namespace UnitScript

/-- The position after this one. -/
def nextPosition (u : UnitScript) (position : Nat) : Nat :=
  if u.loop && decide (u.stations.length ≤ position + 1) then 0 else position + 1

/-- The unit as it is offered: enabled at a station whose condition holds. -/
def candidate (u : UnitScript) (s : State) : Candidate :=
  let station := u.stations[s.position u.id]?
  { id := u.id
    kind := if u.inbox then .inbox else .actor
    enabled := station.any fun station => station.enabledWhen.eval s
    pending := station.bind (·.pending) }

end UnitScript

namespace Scenario

def unit? (p : Scenario) (id : UnitId) : Option UnitScript := p.units.find? fun u => u.id == id

/-- Move a unit on and do what stood at its position. -/
def execute (p : Scenario) (id : UnitId) (s : State) : Handler State :=
  match p.unit? id with
  | none => .finish s
  | some u =>
    let position := s.position id
    let s := s.moveTo id (u.nextPosition position)
    match u.stations[position]? with
    | none => .finish s
    | some station => runAll s .finish .abort station.body

/-- The program that a script describes. -/
def program (p : Scenario) : Program State where
  fresh := ⟨p.values, [], []⟩
  start s := runAll s .finish .abort p.start
  units s := p.units.map fun u => u.candidate s
  current _ := none
  execute := p.execute
  hotMonitors s := s.hot
  label _ id := ((p.unit? id).bind (·.label)).getD id.text

end Scenario
end Script
end Interleave
