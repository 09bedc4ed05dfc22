/-
# `Decimal.Numeral` — numbers as a command line writes them

A natural number is one digit or more, behind a plus sign if one likes,
and fits in a word of sixty-four bits.  A float is `inf`, `infinity` or
`nan` in letters of either case, or digits with at most one point among,
before or behind them and an exponent if one likes; it may have a sign.
Nothing else may stand in the text, blanks included.

The float read is the one NEAREST to the number written.
-/
import OrderDecoding.Score
import OrderDecoding.Word

namespace OrderDecoding
namespace Decimal

/-- The number that digits add up to. -/
def ofDigits (digits : List Char) : Nat :=
  digits.foldl (fun n c => n * 10 + (c.toNat - '0'.toNat)) 0

/-- The number of a text that is nothing but digits, one at least. -/
def allDigits? (s : List Char) : Option Nat :=
  if s.isEmpty || !s.all Char.isDigit then none else some (ofDigits s)

def natural? (text : String) : Option Nat :=
  let digits :=
    match text.toList with
    | '+' :: s => s
    | s => s
  match allDigits? digits with
  | some n => if n < Word.bound then some n else none
  | none => none

/-! ## Floats -/

/-- The exponent that a text writes out, sign and digits. -/
def exponent? : List Char → Option Int
  | '+' :: s => (allDigits? s).map Int.ofNat
  | '-' :: s => (allDigits? s).map fun n => -(n : Int)
  | s => (allDigits? s).map Int.ofNat

/-- The float nearest to `digits · 10 ^ exponent`, where `length` bounds
the number of digits.  Far outside the range of floats the power is not
worked out. -/
def nearest (digits length : Nat) (exponent : Int) : Float :=
  if digits = 0 then 0.0
  else if 400 < exponent then Score.posInf
  else if exponent + length < -400 then 0.0
  else if 0 ≤ exponent then Float.ofScientific digits false exponent.toNat
  else Float.ofScientific digits true (-exponent).toNat

/-- A number without sign: digits, point and exponent. -/
def plainNumber? (s : List Char) : Option Float :=
  let whole := s.takeWhile Char.isDigit
  let s := s.dropWhile Char.isDigit
  let (fraction, s) :=
    match s with
    | '.' :: s => (s.takeWhile Char.isDigit, s.dropWhile Char.isDigit)
    | s => ([], s)
  let digits := whole ++ fraction
  let value (exponent : Int) : Float :=
    nearest (ofDigits digits) digits.length (exponent - fraction.length)
  if digits.isEmpty then none
  else
    match s with
    | [] => some (value 0)
    | 'e' :: s => (exponent? s).map value
    | 'E' :: s => (exponent? s).map value
    | _ => none

/-- A float without sign: a word or a number. -/
def plainFloat? (s : List Char) : Option Float :=
  let word := String.ofList (s.map Char.toLower)
  if word == "inf" || word == "infinity" then some Score.posInf
  else if word == "nan" then some (0.0 / 0.0)
  else plainNumber? s

def float? (text : String) : Option Float :=
  match text.toList with
  | '+' :: s => plainFloat? s
  | '-' :: s => (plainFloat? s).map fun x => -x
  | s => plainFloat? s

end Decimal
end OrderDecoding
