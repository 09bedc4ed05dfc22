/-
# `Score` — what decoding needs of a number

Scores are compared, added, divided and put through `exp` and `log`.  The
algorithms of this library use nothing else, so they are written over any
type with the operations of `Score` and run over `Float`; what is true of
them for a reason other than rounding can then be said over an exact type.

Comparison comes twice.  `<` and `≤` are those of the numbers: an entry
that is not a number is neither below nor above anything, itself included
(`isNaN`), and `-∞` is the score of an entry that may not be chosen.
`ranks` is a total order under them that has a place for every value, and
is what a ranking sorts by.
-/
namespace OrderDecoding

/-- Numbers that rows of scores hold. -/
class Score (α : Type) extends Zero α, One α, Add α, Sub α, Mul α, Div α, LT α, LE α where
  /-- The score of what may not be chosen. -/
  negInf : α
  posInf : α
  exp : α → α
  log : α → α
  /-- A count as a score. -/
  count : Nat → α
  decLt : DecidableLT α
  decLe : DecidableLE α
  /-- The first value has its place at or below the second's. -/
  ranks : α → α → Bool

attribute [reducible, instance] Score.decLt Score.decLe

/-- The ways of not being finite. -/
inductive NonFinite where
  | nan
  | posInf
  | negInf
deriving DecidableEq

def NonFinite.text : NonFinite → String
  | nan => "NaN"
  | posInf => "inf"
  | negInf => "-inf"

namespace Score

variable {α : Type} [Score α]

def isNaN (x : α) : Bool := !decide (x ≤ x)

def isFinite (x : α) : Bool := decide (negInf < x) && decide (x < posInf)

/-- In which way a value cannot be a score, if it cannot: `-∞` can. -/
def noScore? (x : α) : Option NonFinite :=
  if isNaN x then some .nan
  else if posInf ≤ x then some .posInf
  else none

/-- In which way a value is not finite, if it is not. -/
def nonFinite? (x : α) : Option NonFinite :=
  (noScore? x).or (if x ≤ negInf then some .negInf else none)

/-- The sum from left to right. -/
def total (xs : List α) : α := xs.foldl (· + ·) 0

end Score

/-- The place of a float in the total order: the floats with a sign come
first, from the largest magnitude to the smallest; then those without, from
the smallest to the largest, infinity and not-a-number last. -/
def floatPlace (x : Float) : UInt64 :=
  let bits := x.toBits
  if bits < 0x8000000000000000 then bits ||| 0x8000000000000000 else ~~~bits

/-- Floats with some functions for `exp` and `log`. -/
@[reducible] def floatScore (exp log : Float → Float) : Score Float where
  zero := 0.0
  one := 1.0
  negInf := -1.0 / 0.0
  posInf := 1.0 / 0.0
  exp := exp
  log := log
  count := Float.ofNat
  decLt := inferInstance
  decLe := inferInstance
  ranks x y := floatPlace x ≤ floatPlace y

instance : Score Float := floatScore Float.exp Float.log

end OrderDecoding
