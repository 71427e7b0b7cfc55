import Interleave.Candidate
import Interleave.Heat
import Interleave.Hash.SipHash

/-!
# Interleave.State.Element

The parts of a global state that are hashed one by one: a machine with the top of its state stack
and the hash of its local data, a monitor with its state, an enabled unit. `Element.bytes` is what
is hashed, `Element.digest` the hash.
-/

namespace Interleave

inductive Element
  | machine (unit : UnitId) (top : Option String) (localHash : Option UInt64)
  | monitor (name state : String) (heat : Heat)
  | enabled (unit : UnitId)
deriving DecidableEq, Repr

namespace Element

/-- A string ends with a byte that no text holds. -/
def stringBytes (s : String) : List UInt8 := s.toUTF8.toList ++ [0xff]

/-- A tag of eight bytes tells an absent value from a present one. -/
def optionBytes {α : Type} (bytes : α → List UInt8) : Option α → List UInt8
  | none => SipHash.wordBytes 0
  | some a => SipHash.wordBytes 1 ++ bytes a

def heatTag : Heat → UInt64
  | .neutral => 0
  | .hot => 1
  | .cold => 2

def bytes : Element → List UInt8
  | machine unit top localHash =>
    stringBytes "machine" ++ SipHash.wordBytes unit.value ++ optionBytes stringBytes top ++
      optionBytes SipHash.wordBytes localHash
  | monitor name state heat =>
    stringBytes "monitor" ++ stringBytes name ++ stringBytes state ++
      SipHash.wordBytes (heatTag heat)
  | enabled unit => stringBytes "enabled" ++ SipHash.wordBytes unit.value

def digest (e : Element) : UInt64 := SipHash.hash e.bytes

end Element
end Interleave
