/-
# `Scorer` — where the scores come from

A scorer is asked about the last of the units it is shown, knowing the
orders already chosen for the units before it, and answers with one score
per entry of the vocabulary.  It is a FUNCTION: the same question has the
same answer.  The scores are not normalised.
-/
import OrderDecoding.Error

namespace OrderDecoding

/-- Scores for the last of some units, given the orders of those before
it. -/
abbrev Scorer (α : Type) := List Area → List Order → Except ScorerError (List α)

namespace Scorer

variable {α : Type}

/-- The step that a list of units asks about. -/
def stepOf (units : List Area) : Nat := units.length - 1

/-- One fixed row per step, whatever was chosen before. -/
def table (rows : List (List α)) : Scorer α := fun units _ =>
  match rows[stepOf units]? with
  | some row => .ok row
  | none => .error (.missingStep (stepOf units))

end Scorer

/-- A scorer that would ask a trained network, described by the file it
is kept in.  This build holds no network runtime, so none is ever loaded
and every question about a step within `maxUnits` is turned down. -/
structure Policy where
  model : Option String := none
  vocab : Vocabulary := {}
  maxUnits : Nat := 17

namespace Policy

def isLoaded (_ : Policy) : Bool := false

def scorer {α : Type} (p : Policy) : Scorer α := fun units _ =>
  if p.maxUnits ≤ Scorer.stepOf units then .error (.missingStep (Scorer.stepOf units))
  else .error (.unavailable "compiled without 'neural' feature")

end Policy
end OrderDecoding
