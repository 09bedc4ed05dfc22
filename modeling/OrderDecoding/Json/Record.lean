/-
# `Json.Record` — readers of records

A record is written as an object with its fields in any order, each once,
or as a list of its fields in the order in which they are declared.  It is
read into a draft that starts out with a value for every field; each field
read replaces one of them.

A field that does not stand in the text is a mismatch, unless it may be
left out (`Omission`).  In an object, keys that belong to no field are
skipped with their values.  What is missing is looked at when the closing
bracket is in sight, so a fault of the text before it comes first.
-/
import OrderDecoding.Json.Reader

namespace OrderDecoding
namespace Json

/-- Where a field may be left out. -/
inductive Omission where
  | nowhere
  | inObjects
  | anywhere
deriving DecidableEq

/-- A field of a record `σ`: its key, and how its value changes a
draft. -/
structure RecordField (σ : Type) where
  key : String
  omission : Omission
  read : Reader (σ → σ)

/-- A field with a value of type `β`. -/
def RecordField.of {σ β : Type} (key : String) (omission : Omission) (read : Reader β)
    (set : σ → β → σ) : RecordField σ :=
  { key, omission
    read := fun s => do
      let (value, s) ← read s
      .ok (fun draft => set draft value, s) }

variable {σ : Type}

/-! ## Objects -/

/-- Looks for the next key of an object: none at its end, with the text
behind it. -/
def nextKey (first : Bool) : Reader (Option String) := fun s =>
  match skipBlanks s with
  | [] => .error .truncated
  | '}' :: s => .ok (none, s)
  | c :: s => do
      let s ← if first then .ok (c :: s) else if c = ',' then .ok s else .error .malformed
      let (name, s) ← key s
      .ok (some name, s)

/-- Reads members up to the end of an object, at most `fuel` of them.
`seen` are the keys of the fields read so far. -/
def members (fields : List (RecordField σ)) : Nat → List String → Bool → σ → Reader σ
  | 0, _, _, _, _ => .error .truncated
  | fuel + 1, seen, first, draft, s => do
      match ← nextKey first s with
      | (none, s) =>
          if fields.any fun f => f.omission == .nowhere && !seen.contains f.key then
            .error .mismatched
          else .ok (draft, s)
      | (some name, s) =>
          match fields.find? (·.key == name) with
          | none => do
              let s ← skip (← colon s)
              members fields fuel seen false draft s
          | some f =>
              if seen.contains name then .error .mismatched
              else do
                let (set, s) ← f.read (← colon s)
                members fields fuel (name :: seen) false (set draft) s

/-! ## Lists of fields -/

/-- Reads the end of a list that holds all its fields. -/
def closeList (s : List Char) : Except Fault (List Char) :=
  match skipBlanks s with
  | [] => .error .truncated
  | ']' :: s => .ok s
  | _ => .error .malformed

/-- Reads fields in the order in which they are declared. -/
def positional : List (RecordField σ) → Bool → σ → Reader σ
  | [], _, draft, s => do .ok (draft, ← closeList s)
  | f :: fields, first, draft, s => do
      match ← nextElement first s with
      | .close s =>
          if (f :: fields).any fun f => f.omission != .anywhere then .error .mismatched
          else .ok (draft, s)
      | .more s => do
          let (set, s) ← f.read s
          positional fields false (set draft) s

/-- Reads a record, starting from a draft. -/
def record (fields : List (RecordField σ)) (draft : σ) : Reader σ := fun s =>
  match skipBlanks s with
  | [] => .error .truncated
  | '{' :: s => members fields (s.length + 1) [] true draft s
  | '[' :: s => positional fields true draft s
  | s => .error (wrongKind s)

/-- A reader followed by a conversion that can turn its value down, for a
reason. -/
def refine {β γ : Type} (read : Reader β) (convert : β → Except String γ) : Reader γ :=
  fun s => do
    let (value, s) ← read s
    match convert value with
    | .ok value => .ok (value, s)
    | .error reason => .error (.refused reason)

end Json
end OrderDecoding
