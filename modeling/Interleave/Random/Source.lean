import Interleave.Random.ChaCha

/-!
# Interleave.Random.Source

A seeded source of random choices: a key and a position in its key stream, which is read in words of
64 bits. `below n` draws a number under `n`, rejecting the words that would favour the low numbers.
-/

namespace Interleave

/-- A place in the key stream of a seed. -/
structure Source where
  key : Vector UInt32 8
  /-- How many words have been read, eight to a block. -/
  position : Nat
  /-- The block that holds the next word. -/
  block : ChaCha.Words
  block_eq : block = ChaCha.block key (UInt64.ofNat (position / 8))
deriving DecidableEq

namespace Source

/-- The next state of the congruential generator that spreads a seed over the key. -/
def spread (s : UInt64) : UInt64 := s * 6364136223846793005 + 11634580027462260723

/-- A word out of a generator state: shifted together, then rotated right by the top bits. -/
def permute (s : UInt64) : UInt32 :=
  let x := (((s >>> 18) ^^^ s) >>> 27).toUInt32
  let n := (s >>> 59).toUInt32
  (x >>> n) ||| (x <<< ((32 - n) % 32))

/-- The source of a key at the start of its stream. -/
def ofKey (key : Vector UInt32 8) : Source := ⟨key, 0, ChaCha.block key 0, rfl⟩

def ofSeed (seed : UInt64) : Source :=
  let states := (Nat.repeat (fun (s : UInt64 × Array UInt64) =>
    let s' := spread s.1
    (s', s.2.push s')) 8 (seed, #[])).2
  .ofKey (.ofFn fun i => permute (states.getD i 0))

/-- The word at the position, its low half first in the stream. -/
def word (s : Source) : Nat :=
  s.block[2 * (s.position % 8)].toNat + UInt32.size * s.block[2 * (s.position % 8) + 1].toNat

/-- Go on to the next word, which may open a new block. -/
def advance (s : Source) : Source :=
  if h : (s.position + 1) % 8 = 0 then
    ⟨s.key, s.position + 1, ChaCha.block s.key (UInt64.ofNat ((s.position + 1) / 8)), rfl⟩
  else
    ⟨s.key, s.position + 1, s.block, by
      rw [s.block_eq, show (s.position + 1) / 8 = s.position / 8 by omega]⟩

def next (s : Source) : Nat × Source := (s.word, s.advance)

/-- The largest low half of a product that is accepted: below it each result under `n` is hit by
equally many words. -/
def zone (n : Nat) : Nat := (n <<< (63 - n.log2)) - 1

/-- The high half of a word times `n`, which lies under `n`. -/
def scale (x n : Nat) : Nat := x * n / UInt64.size

/-- Draw until a word is accepted; the last of `attempts + 1` draws is taken as it is. -/
def drawBelow (n : Nat) : Nat → Source → Nat × Source
  | 0, s => (scale s.next.1 n, s.next.2)
  | attempts + 1, s =>
    if s.next.1 * n % UInt64.size ≤ zone n then (scale s.next.1 n, s.next.2)
    else drawBelow n attempts s.next.2

/-- A number under `n`, for `n` from 1 to `2 ^ 64`. At least half of the words are accepted, so
the bound on the attempts is never felt. -/
def below (n : Nat) (s : Source) : Nat × Source := drawBelow n 1000 s

theorem word_lt (s : Source) : s.word < UInt64.size := by
  have hlow := s.block[2 * (s.position % 8)].toNat_lt
  have hhigh := s.block[2 * (s.position % 8) + 1].toNat_lt
  simp only [word, UInt32.size, UInt64.size]
  omega

theorem scale_lt {x n : Nat} (hx : x < UInt64.size) (hn : 0 < n) : scale x n < n := by
  unfold scale
  rw [Nat.div_lt_iff_lt_mul (by decide), Nat.mul_comm n]
  exact Nat.mul_lt_mul_of_pos_right hx hn

theorem below_lt {n : Nat} (hn : 0 < n) (s : Source) : (s.below n).1 < n := by
  have hdraw : ∀ (attempts : Nat) (s : Source), (drawBelow n attempts s).1 < n := by
    intro attempts
    induction attempts with
    | zero => intro s; exact scale_lt s.word_lt hn
    | succ attempts ih =>
      intro s
      unfold drawBelow
      split
      · exact scale_lt s.word_lt hn
      · exact ih _
  exact hdraw _ s

end Source
end Interleave
