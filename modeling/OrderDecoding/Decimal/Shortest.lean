/-
# `Decimal.Shortest` — the fewest digits that read back

A float is written with the fewest decimal digits that a reader which
rounds to nearest turns back into it; of several such texts the one
nearest to the float.  A float stands for an interval of reals, all those
that round to it; the search goes through decimal grids from coarse to
fine and takes the first with a point in the interval.  If a grid has one,
so does one of the two neighbours of the float on it.

All of it is exact arithmetic on natural numbers.
-/
import OrderDecoding.Score

namespace OrderDecoding
namespace Decimal

/-- A number `digits · 10 ^ exponent`. -/
structure Digits where
  digits : Nat
  exponent : Int
deriving DecidableEq

/-- A number between two bounds, all over one denominator, and whether the
bounds count. -/
structure Interval where
  low : Nat
  middle : Nat
  high : Nat
  denominator : Nat
  closed : Bool

/-- The reals that round to `mantissa · 2 ^ exponent`; the gap below a
power of two is half the gap above. -/
def interval (mantissa : Nat) (exponent : Int) (atPower : Bool) : Interval :=
  let up := Nat.pow 2 (exponent - 2).toNat
  { low := (4 * mantissa - if atPower then 1 else 2) * up
    middle := 4 * mantissa * up
    high := (4 * mantissa + 2) * up
    denominator := Nat.pow 2 (2 - exponent).toNat
    closed := mantissa % 2 == 0 }

/-- An interval divided by `10 ^ n`. -/
def Interval.scale (i : Interval) (n : Int) : Interval :=
  let up := Nat.pow 10 (-n).toNat
  { low := i.low * up
    middle := i.middle * up
    high := i.high * up
    denominator := i.denominator * Nat.pow 10 n.toNat
    closed := i.closed }

def Interval.contains (i : Interval) (n : Nat) : Bool :=
  let point := n * i.denominator
  if i.closed then i.low ≤ point && point ≤ i.high
  else i.low < point && point < i.high

/-- The whole number of an interval that is nearest to its middle, if one
of the middle's two neighbours lies in it; of two at one distance the even
one. -/
def Interval.whole? (i : Interval) : Option Nat :=
  let below := i.middle / i.denominator
  let down := i.middle - below * i.denominator
  let up := (below + 1) * i.denominator - i.middle
  match i.contains below, i.contains (below + 1) with
  | false, false => none
  | true, false => some below
  | false, true => some (below + 1)
  | true, true =>
      if down < up || (down == up && below % 2 == 0) then some below else some (below + 1)

/-- The exponent of the first digit of a number below one, looked for down
from `-1`. -/
def leadingBelow (i : Interval) : Nat → Nat → Int
  | 0, n => -(n : Int)
  | fuel + 1, n =>
      if i.denominator ≤ i.middle * Nat.pow 10 n then -(n : Int) else leadingBelow i fuel (n + 1)

/-- The exponent of the first digit of an interval's middle. -/
def leading (i : Interval) : Int :=
  let whole := i.middle / i.denominator
  if whole = 0 then leadingBelow i 400 1 else ((Nat.toDigits 10 whole).length : Int) - 1

/-- Takes trailing zeros off, at most `fuel` of them. -/
def trim : Nat → Digits → Digits
  | 0, d => d
  | fuel + 1, d =>
      if d.digits % 10 = 0 then trim fuel { digits := d.digits / 10, exponent := d.exponent + 1 }
      else d

/-- Goes through the grids from `n` digits on. -/
def search (i : Interval) (first : Int) : Nat → Nat → Digits
  | 0, _ => { digits := i.middle / i.denominator, exponent := 0 }
  | fuel + 1, n =>
      let exponent := first - n + 1
      match (i.scale exponent).whole? with
      | some digits => trim 18 { digits, exponent }
      | none => search i first fuel (n + 1)

/-- The bit that a float's mantissa has on top of those it stores. -/
def hiddenBit : Nat := 4503599627370496

/-- The shortest digits of a positive float that is not infinite. -/
def shortest (x : Float) : Digits :=
  let bits : Nat := x.toBits.toNat
  let field : Nat := bits / hiddenBit % 2048
  let low : Nat := bits % hiddenBit
  let i :=
    if field = 0 then interval low (-1074) false
    else interval (hiddenBit + low) ((field : Int) - 1075) (low == 0 && 1 < field)
  search i (leading i) 17 1

/-! ## The written form -/

def zeros (n : Nat) : String := String.ofList (List.replicate n '0')

/-- Writes digits with a point: positional from `1e-5` up to below `1e16`,
with an exponent outside. -/
def Digits.write (d : Digits) : String :=
  let digits := Nat.toDigits 10 d.digits
  let point := d.exponent + digits.length
  if 0 ≤ d.exponent ∧ point ≤ 16 then
    String.ofList digits ++ zeros d.exponent.toNat ++ ".0"
  else if 0 < point ∧ point ≤ 16 then
    String.ofList (digits.take point.toNat) ++ "." ++ String.ofList (digits.drop point.toNat)
  else if -5 < point ∧ point ≤ 0 then
    "0." ++ zeros (-point).toNat ++ String.ofList digits
  else
    let mantissa :=
      if digits.length = 1 then String.ofList digits
      else String.ofList (digits.take 1) ++ "." ++ String.ofList (digits.drop 1)
    mantissa ++ "e" ++ toString (point - 1)

/-- Writes a float that is not infinite and is a number. -/
def writeFloat (x : Float) : String :=
  let sign := if x.toBits < 0x8000000000000000 then "" else "-"
  if x == 0.0 then sign ++ "0.0" else sign ++ (shortest x.abs).write

end Decimal
end OrderDecoding
