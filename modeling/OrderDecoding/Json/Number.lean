/-
# `Json.Number` — numbers of a JSON text

A number without point and exponent that fits in a word of sixty-four
bits is a natural number.  Any other is a float, made from the digits that
fit in one word (the SIGNIFICAND) and a power of ten: the significand is
rounded to a float and multiplied or divided by the power, which rounds
again.  So long numbers can miss the nearest float by a last bit.

A float that overflows is malformed; one that underflows is zero.
-/
import OrderDecoding.Json.Text
import OrderDecoding.Word

namespace OrderDecoding
namespace Json

/-- A number as it was written: a word, or a float. -/
inductive Number where
  | natural (n : Nat)
  | real (x : Float)

def Number.toFloat : Number → Float
  | natural n => Float.ofNat n
  | real x => x

def digit (c : Char) : Nat := c.toNat - '0'.toNat

/-- Takes digits while the number they add up to fits in a word: that
number, how many digits were taken, and what is left. -/
def takeDigits (significand taken : Nat) : List Char → Nat × Nat × List Char
  | [] => (significand, taken, [])
  | c :: s =>
      let grown := significand * 10 + digit c
      if c.isDigit && decide (grown < Word.bound) then takeDigits grown (taken + 1) s
      else (significand, taken, c :: s)

/-! ## Powers of ten -/

/-- The largest exponent whose power of ten is a float. -/
def maxExponent : Nat := 308

def powerOfTen (n : Nat) : Float := Float.ofScientific 1 false n

/-- Divides by the largest power of ten a number of times. -/
def divideByLargest : Nat → Float → Float
  | 0, x => x
  | n + 1, x => divideByLargest n (x / powerOfTen maxExponent)

/-- A significand over `10 ^ n`.  Three divisions by the largest power
already give zero. -/
def scaleDown (significand n : Nat) : Float :=
  let steps := (n - 1) / maxExponent
  divideByLargest (min steps 3) (Float.ofNat significand)
    / powerOfTen (n - steps * maxExponent)

/-- A significand times `10 ^ n`, if that is a float. -/
def scaleUp (significand n : Nat) : Except Fault Float :=
  if n ≤ maxExponent then
    let x := Float.ofNat significand * powerOfTen n
    if x.isInf then .error .malformed else .ok x
  else if significand = 0 then .ok 0.0
  else .error .malformed

/-- The float of a significand and a power of ten. -/
def scaled (positive : Bool) (significand : Nat) (exponent : Int) : Except Fault Float := do
  let x ←
    if 0 ≤ exponent then scaleUp significand exponent.toNat
    else .ok (scaleDown significand (-exponent).toNat)
  .ok (if positive then x else -x)

/-! ## Parts of a number -/

/-- The largest exponent that is still counted. -/
def maxWrittenExponent : Nat := 2147483647

/-- Reads the digits of an exponent; there has to be one. -/
def exponentDigits : Reader Nat
  | [] => .error .truncated
  | c :: s =>
      if c.isDigit then
        .ok ((c :: s.takeWhile Char.isDigit).foldl (fun n c => n * 10 + digit c) 0,
          s.dropWhile Char.isDigit)
      else .error .malformed

/-- Reads what follows the letter of an exponent, and ends the number. -/
def exponentPart (positive : Bool) (significand : Nat) (start : Int) : Reader Number :=
  fun s => do
    let (up, s) :=
      match s with
      | '+' :: s => (true, s)
      | '-' :: s => (false, s)
      | s => (true, s)
    let (n, s) ← exponentDigits s
    if maxWrittenExponent < n then
      if significand ≠ 0 && up then .error .malformed
      else .ok (.real (if positive then 0.0 else -0.0), s)
    else
      let x ← scaled positive significand (if up then start + n else start - n)
      .ok (.real x, s)

/-- Reads an exponent if there is one, and ends the number. -/
def ending (positive : Bool) (significand : Nat) (exponent : Int) : Reader Number
  | 'e' :: s => exponentPart positive significand exponent s
  | 'E' :: s => exponentPart positive significand exponent s
  | s => do
      let x ← scaled positive significand exponent
      .ok (.real x, s)

/-- Reads the digits after a point; there has to be one.  Digits past the
word are read and ignored. -/
def fraction (positive : Bool) (significand exponent : Nat) : Reader Number := fun s =>
  let (grown, taken, s) := takeDigits significand 0 s
  let past := s.takeWhile Char.isDigit
  if taken = 0 && past.isEmpty then
    .error (if s.isEmpty then .truncated else .malformed)
  else
    ending positive grown (exponent - taken) (s.drop past.length)

/-- Reads what may follow the digits before the point, `extra` of which
did not fit in the word. -/
def afterDigits (positive : Bool) (significand extra : Nat) : Reader Number
  | '.' :: s => fraction positive significand extra s
  | s =>
      let isExponent :=
        match s with
        | 'e' :: _ | 'E' :: _ => true
        | _ => false
      if isExponent || extra ≠ 0 then ending positive significand extra s
      else if positive then .ok (.natural significand, s)
      else .ok (.real (-Float.ofNat significand), s)

/-- Reads a number whose sign has been read.  A leading zero stands
alone. -/
def unsigned (positive : Bool) : Reader Number
  | [] => .error .truncated
  | '0' :: s =>
      if (s.head?.map Char.isDigit).getD false then .error .malformed
      else afterDigits positive 0 0 s
  | c :: s =>
      if c.isDigit then
        let (significand, _, s) := takeDigits 0 0 (c :: s)
        let extra := s.takeWhile Char.isDigit
        afterDigits positive significand extra.length (s.drop extra.length)
      else .error .malformed

/-! ## Skipping -/

/-- Reads past one digit or more. -/
def skipDigits : List Char → Except Fault (List Char)
  | [] => .error .malformed
  | c :: s => if c.isDigit then .ok (s.dropWhile Char.isDigit) else .error .malformed

/-- Reads past an exponent if there is one. -/
def skipExponent (s : List Char) : Except Fault (List Char) :=
  let after (s : List Char) :=
    match s with
    | '+' :: s => skipDigits s
    | '-' :: s => skipDigits s
    | s => skipDigits s
  match s with
  | 'e' :: s => after s
  | 'E' :: s => after s
  | s => .ok s

/-- Reads past a number whose sign has been read.  What it is worth does
not matter, nor does it matter here how a number came to be cut short: it
is malformed. -/
def skipNumber (s : List Char) : Except Fault (List Char) := do
  let s ←
    match s with
    | '0' :: s =>
        if (s.head?.map Char.isDigit).getD false then .error .malformed else .ok s
    | s => skipDigits s
  match s with
  | '.' :: s => skipExponent (← skipDigits s)
  | s => skipExponent s

end Json
end OrderDecoding
