/-
# `Json.Value` — values nobody asked for

Two things happen to a value that is not wanted.  In a place where ANY
value may stand it is skipped (`skipValue`): it has to be written well,
all the way down.  In a place where another kind of value was wanted it is
a mismatch (`wrongKind`): a number, word or string is read to its end
first, because its own fault comes earlier in the text, while a list or an
object is turned down at its bracket.

Skipping recurses into lists and objects on a bound of the text's length;
every value takes at least one character.
-/
import OrderDecoding.Json.Number

namespace OrderDecoding
namespace Json

/-- The fault of a text that starts with a value of an unwanted kind. -/
def wrongKind (s : List Char) : Fault :=
  let after {β : Type} : Except Fault β → Fault
    | .error fault => fault
    | .ok _ => .mismatched
  match s with
  | 'n' :: s => after (letters "ull".toList s)
  | 't' :: s => after (letters "rue".toList s)
  | 'f' :: s => after (letters "alse".toList s)
  | '-' :: s => after (unsigned false s)
  | '"' :: s => after (string s)
  | '[' :: _ => .mismatched
  | '{' :: _ => .mismatched
  | c :: s => if c.isDigit then after (unsigned true (c :: s)) else .malformed
  | [] => .truncated

/-! ## Skipping -/

mutual

/-- Reads past any value. -/
def skipValue : Nat → List Char → Except Fault (List Char)
  | 0, _ => .error .truncated
  | fuel + 1, s =>
      match skipBlanks s with
      | [] => .error .truncated
      | 'n' :: s => letters "ull".toList s
      | 't' :: s => letters "rue".toList s
      | 'f' :: s => letters "alse".toList s
      | '-' :: s => skipNumber s
      | '"' :: s => skipString s
      | '[' :: s =>
          match skipBlanks s with
          | [] => .error .truncated
          | ']' :: s => .ok s
          | s => skipElements fuel s
      | '{' :: s =>
          match skipBlanks s with
          | [] => .error .truncated
          | '}' :: s => .ok s
          | s => skipMembers fuel s
      | c :: s => if c.isDigit then skipNumber (c :: s) else .error .malformed

/-- Reads past the elements of a list, from the next one on. -/
def skipElements : Nat → List Char → Except Fault (List Char)
  | 0, _ => .error .truncated
  | fuel + 1, s => do
      let s ← skipValue fuel s
      match skipBlanks s with
      | [] => .error .truncated
      | ',' :: s => skipElements fuel s
      | ']' :: s => .ok s
      | _ => .error .malformed

/-- Reads past the members of an object, from the next one on. -/
def skipMembers : Nat → List Char → Except Fault (List Char)
  | 0, _ => .error .truncated
  | fuel + 1, s =>
      match skipBlanks s with
      | [] => .error .truncated
      | '"' :: s => do
          let s ← skipString s
          let s ← colon s
          let s ← skipValue fuel s
          match skipBlanks s with
          | [] => .error .truncated
          | ',' :: s => skipMembers fuel s
          | '}' :: s => .ok s
          | _ => .error .malformed
      | _ => .error .malformed

end

/-- Reads past any value, with a bound that every text stays under. -/
def skip (s : List Char) : Except Fault (List Char) := skipValue (2 * s.length + 1) s

end Json
end OrderDecoding
