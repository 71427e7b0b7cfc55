/-!
# Interleave.Candidate

The units of a program under test, as it offers them at a scheduling point: `UnitId` names a unit,
`Candidate` says what it is, whether it is enabled and, if known, which operation it would do next.
-/

namespace Interleave

/-- The number of a unit. -/
structure UnitId where
  value : UInt64
deriving DecidableEq, Repr, Inhabited

namespace UnitId

instance : Ord UnitId := ⟨fun a b => compare a.value b.value⟩

instance : Std.TransOrd UnitId where
  eq_swap {a b} := (Std.OrientedCmp.eq_swap :
    compare a.value b.value = (compare b.value a.value).swap)
  isLE_trans {a _ c} hab hbc :=
    (Std.TransCmp.isLE_trans hab hbc : (compare a.value c.value).isLE)

instance : Std.LawfulEqOrd UnitId where
  eq_of_compare {a b} h := by
    have h : compare a.value b.value = .eq := h
    have h := Std.LawfulEqCmp.compare_eq_iff_eq.1 h
    cases a
    cases b
    exact congrArg UnitId.mk h

def text (u : UnitId) : String := "unit(" ++ toString u.value.toNat ++ ")"

end UnitId

/-- A unit is an actor or the queue of events in front of one. -/
inductive UnitKind
  | actor
  | inbox
deriving DecidableEq, Repr

namespace UnitKind

def name : UnitKind → String
  | actor => "ActorUnit"
  | inbox => "InboxUnit"

def ofName? : String → Option UnitKind
  | "ActorUnit" => some actor
  | "InboxUnit" => some inbox
  | _ => none

end UnitKind

inductive OperationKind
  | create
  | start
  | send
  | receive
  | stop
deriving DecidableEq, Repr

namespace OperationKind

def name : OperationKind → String
  | create => "Create"
  | start => "Start"
  | send => "Send"
  | receive => "Receive"
  | stop => "Stop"

def ofName? : String → Option OperationKind
  | "Create" => some create
  | "Start" => some start
  | "Send" => some send
  | "Receive" => some receive
  | "Stop" => some stop
  | _ => none

end OperationKind

/-- What a unit would do if it ran now, and on which unit. -/
structure Operation where
  kind : OperationKind
  target : UnitId
deriving DecidableEq, Repr

/-- A unit offered at a scheduling point. -/
structure Candidate where
  id : UnitId
  kind : UnitKind
  enabled : Bool
  pending : Option Operation
deriving DecidableEq, Repr

namespace Candidate

/-- An enabled actor that declares no operation. -/
def actor (id : UnitId) : Candidate := ⟨id, .actor, true, none⟩

/-- An enabled inbox that declares no operation. -/
def inbox (id : UnitId) : Candidate := ⟨id, .inbox, true, none⟩

end Candidate

/-- The enabled units among the candidates, in the order they are offered. -/
def enabledIds (candidates : List Candidate) : List UnitId :=
  (candidates.filter (·.enabled)).map (·.id)

end Interleave
