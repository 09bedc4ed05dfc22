/-
# `Candidate` — a complete set of orders

A candidate has one choice per unit, a score, and the strategy it came
from.  Two candidates are the same set of orders when their SIGNATURES,
the chosen entries, are equal; where they came from and what they were
scored does not matter for that.
-/
import OrderDecoding.Sequence

namespace OrderDecoding

/-- The strategy that found a candidate. -/
inductive Origin where
  | beam
  | sample
  | greedy
deriving DecidableEq

namespace Origin

def all : List Origin := [beam, sample, greedy]

/-- The written name of an origin. -/
def name : Origin → String
  | beam => "beam"
  | sample => "sample"
  | greedy => "greedy"

def ofName? (text : String) : Option Origin := all.find? (·.name == text)

end Origin

structure Candidate (α : Type) where
  choices : List Choice
  score : α
  origin : Origin
deriving DecidableEq

namespace Candidate

variable {α : Type}

def signature (c : Candidate α) : List Nat := c.choices.map (·.index)

def orders (c : Candidate α) : List Order := c.choices.map (·.order)

def length (c : Candidate α) : Nat := c.choices.length

def isEmpty (c : Candidate α) : Bool := c.choices.isEmpty

/-- The orders of the first `slots` units, then none up to `slots`. -/
def padded (c : Candidate α) (slots : Nat) : List (Option Order) :=
  let filled := (c.orders.take slots).map some
  filled ++ List.replicate (slots - filled.length) none

end Candidate
end OrderDecoding
