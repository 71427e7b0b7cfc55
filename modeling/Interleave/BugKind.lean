import Interleave.Text.Hex

/-!
# Interleave.BugKind

The kinds of bug, with their codes and names, in ascending order of codes.
-/

namespace Interleave

inductive BugKind
  | safety
  | liveness
  | hotAtRest
  | divergence
  | internal
deriving DecidableEq, Repr

namespace BugKind

def code : BugKind → Nat
  | safety => 0x1000
  | liveness => 0x2000
  | hotAtRest => 0x2001
  | divergence => 0x3000
  | internal => 0x9000

/-- A code that names no kind is an internal error. -/
def ofCode (n : Nat) : BugKind :=
  if n = 0x1000 then safety
  else if n = 0x2000 then liveness
  else if n = 0x2001 then hotAtRest
  else if n = 0x3000 then divergence
  else internal

def name : BugKind → String
  | safety => "Safety"
  | liveness => "Liveness"
  | hotAtRest => "HotAtTermination"
  | divergence => "NonReproducible"
  | internal => "Internal"

def ofName? : String → Option BugKind
  | "Safety" => some safety
  | "Liveness" => some liveness
  | "HotAtTermination" => some hotAtRest
  | "NonReproducible" => some divergence
  | "Internal" => some internal
  | _ => none

def message : BugKind → String
  | safety => "Safety violation"
  | liveness => "Liveness violation"
  | hotAtRest => "Monitor hot at termination"
  | divergence => "Non-reproducible trace"
  | internal => "Internal error"

def text (k : BugKind) : String := k.name ++ " (0x" ++ hexText 4 k.code ++ "): " ++ k.message

/-- The codes from 0x2000 on, up to 0x2fff. -/
def isLiveness : BugKind → Bool
  | liveness => true
  | hotAtRest => true
  | _ => false

instance : Ord BugKind := ⟨fun a b => compare a.code b.code⟩

instance : Std.TransOrd BugKind where
  eq_swap {a b} := (Std.OrientedCmp.eq_swap :
    compare a.code b.code = (compare b.code a.code).swap)
  isLE_trans {a _ c} hab hbc :=
    (Std.TransCmp.isLE_trans hab hbc : (compare a.code c.code).isLE)

/-- No two kinds share a code. -/
instance : Std.LawfulEqOrd BugKind where
  eq_of_compare {a b} h := by
    have hcode : a.code = b.code :=
      Std.LawfulEqCmp.eq_of_compare (show compare a.code b.code = .eq from h)
    cases a <;> cases b <;> first | rfl | cases hcode

end BugKind
end Interleave
