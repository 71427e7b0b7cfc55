import Interleave.Candidate.Document
import Interleave.Program.Script

/-!
# Interleave.Program.Document

Scripts read from documents: a condition or an instruction is an array that starts with its name.
-/

namespace Interleave
namespace Script

def Operand.ofJson? : Json → Option Operand
  | .string (some name) => some (.named name)
  | d => d.word?.map .constant

def Comparison.ofName? : String → Option Comparison
  | "eq" => some .eq
  | "ne" => some .ne
  | "lt" => some .lt
  | "le" => some .le
  | "gt" => some .gt
  | "ge" => some .ge
  | _ => none

mutual

def Condition.ofJson? : Json → Option Condition
  | .bool value => some (.constant value)
  | .array (.string (some name) :: parts) =>
    match name with
    | "and" => (Condition.allOfJson? parts).map .all
    | "or" => (Condition.allOfJson? parts).map .any
    | "not" =>
      match Condition.allOfJson? parts with
      | some [condition] => some (.not condition)
      | _ => none
    | _ => do
      let comparison ← Comparison.ofName? name
      match parts with
      | [a, b] =>
        let a ← Operand.ofJson? a
        let b ← Operand.ofJson? b
        pure (.compare comparison a b)
      | _ => none
  | _ => none

def Condition.allOfJson? : List Json → Option (List Condition)
  | [] => some []
  | d :: rest => do
    let condition ← Condition.ofJson? d
    let conditions ← Condition.allOfJson? rest
    pure (condition :: conditions)

end

/-- The notices that an instruction can give without a computed part. -/
def noticeOfJson? (name : String) (parts : List Json) : Option Notice :=
  match name, parts with
  | "enter", [unit, .string (some state)] => do pure (.enter (← UnitId.ofJson? unit) state)
  | "exit", [unit, .string (some state)] => do pure (.exit (← UnitId.ofJson? unit) state)
  | "local", [unit, hash] => do pure (.localHash (← UnitId.ofJson? unit) (← hash.word?))
  | "monitor", [.string (some name), .string (some state), .string (some heat)] => do
    pure (.monitor name state (← Heat.ofName? heat))
  | "mstatus", [.string (some name), .string (some heat)] => do
    pure (.heat name (← Heat.ofName? heat))
  | "log", [.string (some line)] => some (.log line)
  | _, _ => none

/-- The instructions that hold no others. -/
def simpleOfJson? (name : String) (parts : List Json) : Option Instruction :=
  match name, parts with
  | "local", [unit, hash] => do
    pure (.localHash (← UnitId.ofJson? unit) (← Operand.ofJson? hash))
  | "bool", [max, .string (some target)] => do pure (.boolean (← Operand.ofJson? max) target)
  | "fair", [.string (some id), .string (some target)] => some (.fairBoolean id target)
  | "int", [max, .string (some target)] => do pure (.integer (← Operand.ofJson? max) target)
  | "set", [.string (some target), value] => do pure (.set target (← Operand.ofJson? value))
  | "add", [.string (some target), value] => do pure (.add target (← Operand.ofJson? value))
  | "sub", [.string (some target), value] => do pure (.sub target (← Operand.ofJson? value))
  | "assert", [condition, .string (some message)] => do
    pure (.check (← Condition.ofJson? condition) message)
  | "hot", [.string (some name), .bool value] => some (.hot name value)
  | "goto", [unit, position] => do pure (.goto (← UnitId.ofJson? unit) (← position.count?))
  | "halt", [] => some .halt
  | "panic", [.string (some message)] => some (.panic message)
  | name, parts => (noticeOfJson? name parts).map .tell

mutual

def Instruction.ofJson? : Json → Option Instruction
  | .array [.string (some "if"), condition, .array yes] => do
    pure (.branch (← Condition.ofJson? condition) (← Instruction.allOfJson? yes) [])
  | .array [.string (some "if"), condition, .array yes, .array no] => do
    pure (.branch (← Condition.ofJson? condition) (← Instruction.allOfJson? yes)
      (← Instruction.allOfJson? no))
  | .array [.string (some "try"), .array body, .string (some target)] => do
    pure (.attempt (← Instruction.allOfJson? body) target)
  | .array (.string (some name) :: parts) => simpleOfJson? name parts
  | _ => none

def Instruction.allOfJson? : List Json → Option (List Instruction)
  | [] => some []
  | d :: rest => do
    let instruction ← Instruction.ofJson? d
    let instructions ← Instruction.allOfJson? rest
    pure (instruction :: instructions)

end

def instructions? (d : Json) : Option (List Instruction) := d.items?.bind Instruction.allOfJson?

def Station.ofJson? (d : Json) : Option Station := do
  let f ← Json.Fields.of? ["do", "when", "pending"] d
  let body ← f.withDefault "do" instructions? []
  let enabledWhen ← f.withDefault "when" (·.nullable? Condition.ofJson?) none
  let pending ← f.withDefault "pending" (·.nullable? Operation.ofJson?) none
  pure ⟨body, enabledWhen.getD (.constant true), pending⟩

def UnitScript.ofJson? (d : Json) : Option UnitScript := do
  let f ← Json.Fields.of? ["id", "label", "inbox", "loop", "handlers"] d
  let id ← f.required "id" UnitId.ofJson?
  let label ← f.withDefault "label" (·.nullable? Json.text?) none
  let inbox ← f.withDefault "inbox" Json.bool? false
  let loop ← f.withDefault "loop" Json.bool? false
  let stations ← f.withDefault "handlers" (·.list? Station.ofJson?) []
  pure ⟨id, label, inbox, loop, stations⟩

def Scenario.ofJson? (d : Json) : Option Scenario := do
  let f ← Json.Fields.of? ["start", "vars", "units"] d
  let start ← f.withDefault "start" instructions? []
  let values ← f.withDefault "vars" (·.entries? Json.word?) []
  let units ← f.withDefault "units" (·.list? UnitScript.ofJson?) []
  pure ⟨values, start, units⟩

end Script
end Interleave
