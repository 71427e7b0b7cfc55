import Interleave.Trace

/-!
# Interleave.Trace.Step

The steps of a trace in full, each with its place, its kind, the value it carries and the name of
its fair choice. A trace keeps the choices alone, and the rest of a step follows from its choice
and its place. The other way around, nothing in a step but its name says that a boolean is fair.
-/

namespace Interleave
namespace Trace

/-- The value that a step carries. -/
inductive Payload
  | unit (id : UnitId)
  | boolean (value : Bool)
  | integer (value : UInt64)
deriving DecidableEq, Repr

structure Step where
  index : Nat
  kind : StepKind
  payload : Payload
  fairId? : Option String
deriving DecidableEq, Repr

namespace Step

def payloadOf : Choice → Payload
  | .unit u => .unit u
  | .boolean b => .boolean b
  | .fairBoolean _ b => .boolean b
  | .integer n => .integer n

/-- The step that a choice makes at a place. -/
def ofChoice (index : Nat) (c : Choice) : Step := ⟨index, c.kind, payloadOf c, c.fairId?⟩

/-- The record of a step, which leaves out its place. -/
def choice (s : Step) : Choice :=
  match s.payload, s.fairId? with
  | .unit u, _ => .unit u
  | .boolean b, some id => .fairBoolean id b
  | .boolean b, none => .boolean b
  | .integer n, _ => .integer n

@[simp] theorem choice_ofChoice (index : Nat) (c : Choice) : (ofChoice index c).choice = c := by
  cases c <;> rfl

end Step

def steps (t : Trace) : List Step := t.toList.mapIdx Step.ofChoice

@[simp] theorem steps_empty : empty.steps = [] := rfl

@[simp] theorem steps_push (t : Trace) (c : Choice) :
    (t.push c).steps = t.steps ++ [Step.ofChoice t.length c] := by
  simp [steps, length_toList]

/-- What is recorded of the steps is what the trace keeps. -/
theorem map_choice_steps (t : Trace) : t.steps.map Step.choice = t.toList := by
  refine List.ext_getElem? fun index => ?_
  rw [steps, List.getElem?_map, List.getElem?_mapIdx, Option.map_map]
  cases t.toList[index]? <;> simp

end Trace
end Interleave
