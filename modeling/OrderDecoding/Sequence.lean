/-
# `Sequence` — the choices made so far

Decoding commits one choice per unit: an entry of the vocabulary and the
order it was read as.  Beside the choices a sequence keeps the set of
areas that they claim, ascending and without repetition, so that the
constraint need not look through the orders again at every step.
-/
import OrderDecoding.Order

namespace OrderDecoding

/-- An entry of the vocabulary and the order that it was read as. -/
structure Choice where
  index : Nat
  order : Order
deriving DecidableEq

/-- Adds an area to an ascending set of areas. -/
def claimArea (area : Area) : List Area → List Area
  | [] => [area]
  | b :: rest =>
      if area < b then area :: b :: rest
      else if area = b then b :: rest
      else b :: claimArea area rest

/-- Choices in the order of the steps, and the areas they claim. -/
structure Sequence where
  choices : List Choice := []
  claimed : List Area := []
deriving DecidableEq

namespace Sequence

/-- Commits one more choice. -/
def push (s : Sequence) (c : Choice) : Sequence :=
  { choices := s.choices ++ [c]
    claimed :=
      match c.order.claim? with
      | some area => claimArea area s.claimed
      | none => s.claimed }

/-- Commits choices one after the other. -/
def ofChoices (choices : List Choice) : Sequence := choices.foldl push {}

/-- The chosen orders, which are what a scorer is told. -/
def orders (s : Sequence) : List Order := s.choices.map (·.order)

/-- The chosen entries. -/
def indices (s : Sequence) : List Nat := s.choices.map (·.index)

def isClaimed (s : Sequence) (area : Area) : Bool := s.claimed.contains area

/-- The number of steps committed. -/
def length (s : Sequence) : Nat := s.choices.length

def isEmpty (s : Sequence) : Bool := s.choices.isEmpty

end Sequence
end OrderDecoding
