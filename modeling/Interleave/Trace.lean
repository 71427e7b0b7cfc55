import Interleave.Candidate

/-!
# Interleave.Trace

The choices of one run in order. A choice is a scheduled unit, a boolean, a boolean that belongs
to a named fair choice, or an integer; its place in the trace is its step number.
-/

namespace Interleave

inductive Choice
  | unit (id : UnitId)
  | boolean (value : Bool)
  | fairBoolean (id : String) (value : Bool)
  | integer (value : UInt64)
deriving DecidableEq, Repr

/-- The trace tells three kinds of step apart: a boolean and an integer are one kind. -/
inductive StepKind
  | scheduling
  | nondeterministic
  | fairNondeterministic
deriving DecidableEq, Repr

def StepKind.name : StepKind → String
  | scheduling => "SchedulingChoice"
  | nondeterministic => "NondeterministicChoice"
  | fairNondeterministic => "FairNondeterministicChoice"

namespace Choice

def kind : Choice → StepKind
  | unit _ => .scheduling
  | boolean _ => .nondeterministic
  | fairBoolean _ _ => .fairNondeterministic
  | integer _ => .nondeterministic

def unit? : Choice → Option UnitId
  | unit u => some u
  | _ => none

def boolean? : Choice → Option Bool
  | boolean b => some b
  | fairBoolean _ b => some b
  | _ => none

def integer? : Choice → Option UInt64
  | integer n => some n
  | _ => none

/-- The name of a fair choice. -/
def fairId? : Choice → Option String
  | fairBoolean id _ => some id
  | _ => none

def valueText : Choice → String
  | unit u => u.text
  | boolean b => toString b
  | fairBoolean _ b => toString b
  | integer n => toString n.toNat

/-- A choice at its step. -/
def text (index : Nat) (c : Choice) : String :=
  toString index ++ " :: " ++ c.kind.name ++ " :: " ++ c.valueText

end Choice

structure Trace where
  choices : Array Choice
deriving DecidableEq, Repr, Inhabited

namespace Trace

def empty : Trace := ⟨#[]⟩

def length (t : Trace) : Nat := t.choices.size

def isEmpty (t : Trace) : Bool := t.choices.isEmpty

def get? (t : Trace) (index : Nat) : Option Choice := t.choices[index]?

def push (t : Trace) (c : Choice) : Trace := ⟨t.choices.push c⟩

def ofList (cs : List Choice) : Trace := ⟨cs.toArray⟩

def toList (t : Trace) : List Choice := t.choices.toList

/-- The last choice with its step number. -/
def last? (t : Trace) : Option (Nat × Choice) :=
  t.choices.back?.map fun c => (t.length - 1, c)

/-- The text of each step. -/
def lines (t : Trace) : List String :=
  t.toList.mapIdx Choice.text

@[simp] theorem length_empty : empty.length = 0 := rfl

@[simp] theorem length_push (t : Trace) (c : Choice) : (t.push c).length = t.length + 1 := by
  simp [length, push]

@[simp] theorem toList_push (t : Trace) (c : Choice) : (t.push c).toList = t.toList ++ [c] := by
  simp [toList, push]

theorem get?_push (t : Trace) (c : Choice) (index : Nat) :
    (t.push c).get? index = if index = t.length then some c else t.get? index :=
  Array.getElem?_push

theorem length_toList (t : Trace) : t.toList.length = t.length := by simp [toList, length]

theorem get?_eq_getElem?_toList (t : Trace) (index : Nat) : t.get? index = t.toList[index]? := by
  simp [get?, toList]

theorem lt_length_of_get? {t : Trace} {index : Nat} {c : Choice} (h : t.get? index = some c) :
    index < t.length :=
  (Array.getElem?_eq_some_iff.1 h).1

end Trace
end Interleave
