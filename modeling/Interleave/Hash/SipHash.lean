/-!
# Interleave.Hash.SipHash

SipHash-1-3 with the zero key: one round for every eight bytes, three to finish.
-/

namespace Interleave
namespace SipHash

structure Lanes where
  a : UInt64
  b : UInt64
  c : UInt64
  d : UInt64

def rotate (x : UInt64) (n : UInt64) : UInt64 := (x <<< n) ||| (x >>> (64 - n))

/-- The constants, each mixed with half of a zero key. -/
def initial : Lanes :=
  ⟨0x736f6d6570736575, 0x646f72616e646f6d, 0x6c7967656e657261, 0x7465646279746573⟩

def round (s : Lanes) : Lanes :=
  let a := s.a + s.b
  let b := rotate s.b 13 ^^^ a
  let a := rotate a 32
  let c := s.c + s.d
  let d := rotate s.d 16 ^^^ c
  let a := a + d
  let d := rotate d 21 ^^^ a
  let c := c + b
  let b := rotate b 17 ^^^ c
  let c := rotate c 32
  ⟨a, b, c, d⟩

def absorb (s : Lanes) (m : UInt64) : Lanes :=
  let s := round { s with d := s.d ^^^ m }
  { s with a := s.a ^^^ m }

/-- Up to eight bytes as a number, the low byte first. -/
def littleEndian (bytes : List UInt8) : UInt64 :=
  bytes.foldr (fun byte n => n <<< 8 ||| byte.toUInt64) 0

/-- Absorb whole groups of eight bytes; the bytes left over are fewer than eight. -/
def absorbAll : Lanes → List UInt8 → Lanes × List UInt8
  | s, x0 :: x1 :: x2 :: x3 :: x4 :: x5 :: x6 :: x7 :: rest =>
    absorbAll (absorb s (littleEndian [x0, x1, x2, x3, x4, x5, x6, x7])) rest
  | s, rest => (s, rest)

/-- The last group holds the bytes left over and, on top, the length modulo 256. -/
def hash (bytes : List UInt8) : UInt64 :=
  let (s, rest) := absorbAll initial bytes
  let s := absorb s (littleEndian rest ||| (UInt64.ofNat bytes.length <<< 56))
  let s := round (round (round { s with c := s.c ^^^ 0xff }))
  s.a ^^^ s.b ^^^ s.c ^^^ s.d

/-- Eight bytes of a number, the low one first. -/
def wordBytes (n : UInt64) : List UInt8 :=
  (List.range 8).map fun i => (n >>> UInt64.ofNat (8 * i)).toUInt8

end SipHash
end Interleave
