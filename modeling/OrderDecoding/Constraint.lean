/-
# `Constraint` — one arrival per area

Two units of one side should not be sent to the same area.  When enabled,
the constraint masks the destination entry of every area that the
sequence has already claimed.  A step must still have something to choose:
where the mask would take the last entry of a row, the row is used as it
was, for this step only.  That row is then RELAXED.
-/
import OrderDecoding.Score.Row
import OrderDecoding.Sequence
import OrderDecoding.Vocabulary

namespace OrderDecoding

structure Constraint where
  vocab : Vocabulary
  enabled : Bool
deriving DecidableEq

/-- The row to choose from, and whether the constraint was given up for
it. -/
structure Constrained (α : Type) where
  row : List α
  relaxed : Bool

namespace Constraint

/-- Entry `index` is the destination of an area already claimed. -/
def forbids (c : Constraint) (s : Sequence) (index : Nat) : Bool :=
  c.enabled &&
    match c.vocab.slot? index with
    | some (.destination area) => s.isClaimed area
    | _ => false

/-- Commits a choice under the constraint.  The claim goes with the choice,
so the constraint itself keeps nothing. -/
def register (_ : Constraint) (s : Sequence) (choice : Choice) : Sequence := s.push choice

/-- The entries of a row of some length that are to be masked. -/
def targets (c : Constraint) (s : Sequence) (length : Nat) : List Nat :=
  if c.enabled then (s.claimed.map c.vocab.destinationIndex).filter (· < length) else []

variable {α : Type} [Score α]

/-- The row with all forbidden entries masked. -/
def mask (c : Constraint) (s : Sequence) (row : List α) : List α :=
  (c.targets s row.length).foldl (fun r index => r.set index Score.negInf) row

/-- The number of entries that `mask` masks. -/
def maskedCount (c : Constraint) (s : Sequence) (row : List α) : Nat :=
  (c.targets s row.length).length

/-- Masks the row, unless that leaves nothing to choose. -/
def constrain (c : Constraint) (s : Sequence) (row : List α) : Constrained α :=
  let masked := c.mask s row
  if c.maskedCount s row = 0 || Row.hasMass masked then
    { row := masked, relaxed := false }
  else
    { row, relaxed := true }

end Constraint
end OrderDecoding
