/-
# `Json.Text` — blanks, words and strings of a JSON text

A reader takes the text that is left, as a list of characters, and gives
back what it read together with the text that is left after it, or the
fault at which reading stopped.  This module has the readers that the
rest is made of.

A string that matters is decoded, and its escapes have to stand for
characters: half of a surrogate pair is malformed.  A string that is only
skipped has to be written well but need not stand for anything.
-/
import OrderDecoding.Json.Fault

namespace OrderDecoding
namespace Json

/-- Reads a value off the front of a text. -/
abbrev Reader (β : Type) := List Char → Except Fault (β × List Char)

def isBlank (c : Char) : Bool := c == ' ' || c == '\n' || c == '\t' || c == '\r'

def skipBlanks (s : List Char) : List Char := s.dropWhile isBlank

/-- Reads the given letters and nothing else. -/
def letters : List Char → List Char → Except Fault (List Char)
  | [], s => .ok s
  | _ :: _, [] => .error .truncated
  | l :: ls, c :: s => if c = l then letters ls s else .error .malformed

/-- Reads the colon between a key and its value. -/
def colon (s : List Char) : Except Fault (List Char) :=
  match skipBlanks s with
  | [] => .error .truncated
  | ':' :: s => .ok s
  | _ => .error .malformed

/-! ## Escapes -/

def hexDigit? (c : Char) : Option Nat :=
  if '0' ≤ c && c ≤ '9' then some (c.toNat - '0'.toNat)
  else if 'a' ≤ c && c ≤ 'f' then some (c.toNat - 'a'.toNat + 10)
  else if 'A' ≤ c && c ≤ 'F' then some (c.toNat - 'A'.toNat + 10)
  else none

/-- Reads the four hexadecimal digits of a code unit.  A text is cut short
here if fewer than four bytes are left. -/
def codeUnit : Reader Nat
  | a :: b :: c :: d :: s =>
      match hexDigit? a, hexDigit? b, hexDigit? c, hexDigit? d with
      | some a, some b, some c, some d => .ok (((a * 16 + b) * 16 + c) * 16 + d, s)
      | _, _, _, _ => .error .malformed
  | s => .error (if s.foldl (fun n c => n + c.utf8Size) 0 < 4 then .truncated else .malformed)

/-- Reads the second half of a surrogate pair. -/
def secondHalf (first : Nat) : Reader Char
  | [] => .error .truncated
  | '\\' :: [] => .error .truncated
  | '\\' :: 'u' :: s => do
      let (second, s) ← codeUnit s
      if 0xDC00 ≤ second ∧ second ≤ 0xDFFF then
        .ok (Char.ofNat (0x10000 + (first - 0xD800) * 0x400 + (second - 0xDC00)), s)
      else .error .malformed
  | _ => .error .malformed

/-- What a backslash and one letter stand for. -/
def shortEscape? : Char → Option Char
  | '"' => some '"'
  | '\\' => some '\\'
  | '/' => some '/'
  | 'b' => some '\x08'
  | 'f' => some '\x0c'
  | 'n' => some '\n'
  | 'r' => some '\r'
  | 't' => some '\t'
  | _ => none

/-- Reads what follows a backslash. -/
def escape : Reader Char
  | [] => .error .truncated
  | 'u' :: s => do
      let (unit, s) ← codeUnit s
      if 0xDC00 ≤ unit ∧ unit ≤ 0xDFFF then .error .malformed
      else if 0xD800 ≤ unit ∧ unit ≤ 0xDBFF then secondHalf unit s
      else .ok (Char.ofNat unit, s)
  | c :: s =>
      match shortEscape? c with
      | some c => .ok (c, s)
      | none => .error .malformed

/-- Reads past what follows a backslash. -/
def skipEscape : List Char → Except Fault (List Char)
  | [] => .error .truncated
  | 'u' :: s => do
      let (_, s) ← codeUnit s
      .ok s
  | c :: s => if (shortEscape? c).isSome then .ok s else .error .malformed

/-! ## Strings -/

/-- Reads the characters of a string up to its closing quote, at most
`fuel` of them. -/
def characters : Nat → Reader (List Char)
  | 0, _ => .error .truncated
  | _ + 1, [] => .error .truncated
  | fuel + 1, c :: s =>
      if c = '"' then .ok ([], s)
      else if c = '\\' then do
        let (c, s) ← escape s
        let (cs, s) ← characters fuel s
        .ok (c :: cs, s)
      else if c.toNat < 0x20 then .error .malformed
      else do
        let (cs, s) ← characters fuel s
        .ok (c :: cs, s)

/-- Reads a string whose opening quote has been read. -/
def string : Reader String := fun s => do
  let (cs, s) ← characters (s.length + 1) s
  .ok (String.ofList cs, s)

/-- Reads past the characters of a string and its closing quote. -/
def skipCharacters : Nat → List Char → Except Fault (List Char)
  | 0, _ => .error .truncated
  | _ + 1, [] => .error .truncated
  | fuel + 1, c :: s =>
      if c = '"' then .ok s
      else if c = '\\' then do skipCharacters fuel (← skipEscape s)
      else if c.toNat < 0x20 then .error .malformed
      else skipCharacters fuel s

/-- Reads past a string whose opening quote has been read. -/
def skipString (s : List Char) : Except Fault (List Char) := skipCharacters (s.length + 1) s

end Json
end OrderDecoding
