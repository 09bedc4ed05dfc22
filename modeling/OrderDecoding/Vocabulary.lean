/-
# `Vocabulary` — the flat list of entries that a scorer scores

For a map of `P` areas a row of scores has `7 + P + P` entries:

    0 … 6             one per order kind
    7 … 7+P-1         one per area, as the area that is supported
    7+P … 7+2P-1      one per area, as the area that is gone to

An entry alone is not an order.  `orderAt` reads it for one unit in one
phase: a kind entry is that kind without a second area, a source entry is
a support of that area, and a destination entry is whatever the phase
lets a unit do with an area — a move, a retreat, or a build THERE.
-/
import OrderDecoding.Order

namespace OrderDecoding

/-- Why an entry or a vector does not stand for an order. -/
inductive VocabError where
  | lengthMismatch (expected found : Nat)
  | areaOutOfRange (area : Area) (numAreas : Nat)
  | indexOutOfRange (index size : Nat)
  | multipleHot (block : String)
  | missingType
  | missingSource
  | unexpectedDestination (kind : OrderKind)
deriving DecidableEq

def VocabError.message : VocabError → String
  | lengthMismatch expected found =>
      "order vector has length " ++ toString found ++ ", expected " ++ toString expected
  | areaOutOfRange area numAreas =>
      "area " ++ toString area ++ " out of range for a " ++ toString numAreas ++ "-area map"
  | indexOutOfRange index size =>
      "vocabulary index " ++ toString index ++ " out of range (size " ++ toString size ++ ")"
  | multipleHot block => "more than one " ++ block ++ " bit set"
  | missingType => "order vector has a source or destination but no type"
  | missingSource => "order vector has a type but no source"
  | unexpectedDestination kind => kind.title ++ " orders take no destination"

/-- What one entry of a row stands for. -/
inductive Slot where
  | kind (kind : OrderKind)
  | source (area : Area)
  | destination (area : Area)
deriving DecidableEq

/-- The layout of a row, fixed by the number of areas of the map. -/
structure Vocabulary where
  numAreas : Nat := 81
deriving DecidableEq

namespace Vocabulary

/-- The number of entries that stand for kinds. -/
def numKinds : Nat := 7

/-- The number of entries of a row. -/
def size (v : Vocabulary) : Nat := numKinds + 2 * v.numAreas

/-- Where the source entries start. -/
def sourceOffset (_ : Vocabulary) : Nat := numKinds

/-- Where the destination entries start. -/
def destinationOffset (v : Vocabulary) : Nat := numKinds + v.numAreas

/-- The entry of a destination. -/
def destinationIndex (v : Vocabulary) (area : Area) : Nat := v.destinationOffset + area

def slot? (v : Vocabulary) (index : Nat) : Option Slot :=
  if index < numKinds then (OrderKind.ofIndex? index).map .kind
  else if index < v.destinationOffset then some (.source (index - v.sourceOffset))
  else if index < v.size then some (.destination (index - v.destinationOffset))
  else none

def checkArea (v : Vocabulary) (area : Area) : Except VocabError Unit :=
  if area < v.numAreas then .ok () else .error (.areaOutOfRange area v.numAreas)

/-- What an entry means for a unit in a phase. -/
def readSlot (unit : Area) (phase : Phase) : Slot → Order
  | .kind kind => { kind, source := unit }
  | .source target => .support unit target
  | .destination area =>
      match phase with
      | .movement => .move unit area
      | .retreat => .retreat unit area
      | .build => .build area

/-- The order that entry `index` stands for, read for the unit in area
`unit`.  The entry is looked at before the unit. -/
def orderAt (v : Vocabulary) (index : Nat) (unit : Area) (phase : Phase) :
    Except VocabError Order :=
  match v.slot? index with
  | none => .error (.indexOutOfRange index v.size)
  | some slot => do
      v.checkArea unit
      .ok (readSlot unit phase slot)

end Vocabulary

end OrderDecoding
