/-
# `Random` — a reproducible stream of random words

The generator is xoshiro256++: four words of state, and one word out per
step.  A seed is spread over the state by eight steps of a congruential
generator with a permuted output (PCG32), two halves to a word, the lower
one first.  Equal seeds give equal streams.
-/
import OrderDecoding.Score

namespace OrderDecoding

/-- The state of a generator. -/
structure Generator where
  s0 : UInt64
  s1 : UInt64
  s2 : UInt64
  s3 : UInt64
deriving DecidableEq

namespace Generator

def rotateLeft (x k : UInt64) : UInt64 := (x <<< k) ||| (x >>> (64 - k))

/-! ## Seeding -/

/-- One step of the seeding stream. -/
def seedStep (s : UInt64) : UInt64 := s * 6364136223846793005 + 11634580027462260723

/-- What a state of the seeding stream gives out: thirty-two of its bits,
rotated by the five on top. -/
def seedHalf (s : UInt64) : UInt64 :=
  let x := (((s >>> 18) ^^^ s) >>> 27) &&& 0xffffffff
  let r := s >>> 59
  ((x >>> r) ||| (x <<< (32 - r))) &&& 0xffffffff

/-- The next word of the seeding stream, and its state after it. -/
def seedWord (s : UInt64) : UInt64 × UInt64 :=
  let low := seedStep s
  let high := seedStep low
  (seedHalf low ||| (seedHalf high <<< 32), high)

def ofSeed (seed : UInt64) : Generator :=
  let (s0, s) := seedWord seed
  let (s1, s) := seedWord s
  let (s2, s) := seedWord s
  let (s3, _) := seedWord s
  { s0, s1, s2, s3 }

/-! ## Drawing -/

/-- The next word, and the generator after it. -/
def next (g : Generator) : UInt64 × Generator :=
  let word := rotateLeft (g.s0 + g.s3) 23 + g.s0
  let s2 := g.s2 ^^^ g.s0
  let s3 := g.s3 ^^^ g.s1
  (word,
    { s0 := g.s0 ^^^ s3
      s1 := g.s1 ^^^ s2
      s2 := s2 ^^^ (g.s1 <<< 17)
      s3 := rotateLeft s3 45 })

/-- A number from zero up to but not including one: the upper fifty-three
bits of a word over two to the fifty-third. -/
def nextUnit {α : Type} [Score α] (g : Generator) : α × Generator :=
  let (word, g) := g.next
  (Score.count (word >>> 11).toNat / Score.count 9007199254740992, g)

end Generator
end OrderDecoding
