/-
# `Json.Reader` — readers of values

A reader is told what kind of value it is to find.  The kinds are those
that the formats of this library are made of: natural numbers of one word,
floats, truth values, names out of a fixed list, values that may be left
out, and lists.

A comma promises another element: a list or an object that closes after
one is malformed.
-/
import OrderDecoding.Json.Value

namespace OrderDecoding
namespace Json

variable {β : Type}

/-- Reads one value and finds nothing but blanks after it. -/
def readText (read : Reader β) (text : String) : Except Fault β := do
  let (value, s) ← read text.toList
  if (skipBlanks s).isEmpty then .ok value else .error .malformed

/-! ## Scalars -/

/-- Reads a number, whole or not. -/
def number : Reader Number := fun s =>
  match skipBlanks s with
  | [] => .error .truncated
  | '-' :: s => unsigned false s
  | c :: s => if c.isDigit then unsigned true (c :: s) else .error (wrongKind (c :: s))

/-- Reads a natural number of one word, written without a point. -/
def natural : Reader Nat := fun s => do
  match ← number s with
  | (.natural n, s) => .ok (n, s)
  | (.real _, _) => .error .mismatched

/-- Reads a float; a natural number will do. -/
def float : Reader Float := fun s => do
  let (n, s) ← number s
  .ok (n.toFloat, s)

def bool : Reader Bool := fun s =>
  match skipBlanks s with
  | [] => .error .truncated
  | 't' :: s => do .ok (true, ← letters "rue".toList s)
  | 'f' :: s => do .ok (false, ← letters "alse".toList s)
  | s => .error (wrongKind s)

/-- Reads a value or `null`. -/
def optional (read : Reader β) : Reader (Option β) := fun s =>
  match skipBlanks s with
  | 'n' :: s => do .ok (none, ← letters "ull".toList s)
  | s => do
      let (value, s) ← read s
      .ok (some value, s)

/-! ## Keys and names -/

/-- Reads the key of a member: a string, for which nothing else will do. -/
def key : Reader String := fun s =>
  match skipBlanks s with
  | [] => .error .truncated
  | '"' :: s => string s
  | _ => .error .malformed

/-- Reads `null` as the only value that a name can carry. -/
def noContent (s : List Char) : Except Fault (List Char) :=
  match skipBlanks s with
  | [] => .error .truncated
  | 'n' :: s => letters "ull".toList s
  | s => .error (wrongKind s)

/-- Reads one of the names that `ofName?` knows: as a string, or as the
only key of an object with `null` for its value. -/
def oneOf (ofName? : String → Option β) : Reader β := fun s =>
  let known (name : String) : Except Fault β :=
    match ofName? name with
    | some value => .ok value
    | none => .error .mismatched
  match skipBlanks s with
  | [] => .error .truncated
  | '"' :: s => do
      let (name, s) ← string s
      .ok (← known name, s)
  | '{' :: s => do
      let (name, s) ← key s
      let value ← known name
      let s ← noContent (← colon s)
      match skipBlanks s with
      | [] => .error .truncated
      | '}' :: s => .ok (value, s)
      | _ => .error .malformed
  | _ => .error .malformed

/-! ## Lists -/

/-- What follows in a list: its end, with the text behind it, or an
element, with the text from it on. -/
inductive Next where
  | close (rest : List Char)
  | more (rest : List Char)

/-- Looks for the next element of a list. -/
def nextElement (first : Bool) (s : List Char) : Except Fault Next :=
  match skipBlanks s with
  | [] => .error .truncated
  | ']' :: s => .ok (.close s)
  | c :: s =>
      if first then .ok (.more (c :: s))
      else if c = ',' then
        match skipBlanks s with
        | [] => .error .truncated
        | ']' :: _ => .error .malformed
        | s => .ok (.more s)
      else .error .malformed

/-- Reads elements up to the end of a list, at most `fuel` of them. -/
def elements (read : Reader β) : Nat → Bool → Reader (List β)
  | 0, _, _ => .error .truncated
  | fuel + 1, first, s => do
      match ← nextElement first s with
      | .close s => .ok ([], s)
      | .more s => do
          let (value, s) ← read s
          let (values, s) ← elements read fuel false s
          .ok (value :: values, s)

def list (read : Reader β) : Reader (List β) := fun s =>
  match skipBlanks s with
  | [] => .error .truncated
  | '[' :: s => elements read (s.length + 1) true s
  | s => .error (wrongKind s)

end Json
end OrderDecoding
