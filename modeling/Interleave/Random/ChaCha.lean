/-!
# Interleave.Random.ChaCha

The ChaCha stream cipher with twelve rounds as a source of words: `block key i` holds the sixteen
words of the key stream from the word `16 * i` on. The nonce is zero and the counter has 64 bits.
-/

namespace Interleave
namespace ChaCha

abbrev Words := Vector UInt32 16

/-- A rotation to the left; `n` lies strictly between 0 and 32. -/
def rotate (x : UInt32) (n : UInt32) : UInt32 := (x <<< n) ||| (x >>> (32 - n))

def quarterRound (s : Words) (a b c d : Fin 16) : Words :=
  let xa := s[a] + s[b]
  let xd := rotate (s[d] ^^^ xa) 16
  let xc := s[c] + xd
  let xb := rotate (s[b] ^^^ xc) 12
  let xa := xa + xb
  let xd := rotate (xd ^^^ xa) 8
  let xc := xc + xd
  let xb := rotate (xb ^^^ xc) 7
  (((s.set a xa).set b xb).set c xc).set d xd

/-- The four columns, then the four diagonals. -/
def doubleRound (s : Words) : Words :=
  let s := quarterRound s 0 4 8 12
  let s := quarterRound s 1 5 9 13
  let s := quarterRound s 2 6 10 14
  let s := quarterRound s 3 7 11 15
  let s := quarterRound s 0 5 10 15
  let s := quarterRound s 1 6 11 12
  let s := quarterRound s 2 7 8 13
  quarterRound s 3 4 9 14

/-- The state before the rounds: constants, key, block counter, zero nonce. -/
def initial (key : Vector UInt32 8) (counter : UInt64) : Words :=
  #v[0x61707865, 0x3320646e, 0x79622d32, 0x6b206574,
     key[0], key[1], key[2], key[3], key[4], key[5], key[6], key[7],
     counter.toUInt32, (counter >>> 32).toUInt32, 0, 0]

/-- A block of the key stream. -/
def block (key : Vector UInt32 8) (counter : UInt64) : Words :=
  let s := initial key counter
  s.zipWith (· + ·) (Nat.repeat doubleRound 6 s)

end ChaCha
end Interleave
