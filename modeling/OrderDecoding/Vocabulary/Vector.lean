/-
# `Vocabulary.Vector` — orders as vectors over the vocabulary

An order is written as a vector of the vocabulary's length with a one at
its kind, at the area of its unit and, if it names a second area, at that
destination; all else is zero.  The zero vector stands for no order, and
fills a list of orders up to a fixed number of units (`encodePadded`).

Reading back (`decode`) looks only at which entries are positive.  Each of
the three blocks may hold one of them; a vector with more, or with a
place but no kind, or with a kind that takes no destination and a
destination, is nobody's writing.
-/
import OrderDecoding.Vocabulary

namespace OrderDecoding
namespace Vocabulary

/-- The entries that are set for an order, in ascending order. -/
def hotEntries (v : Vocabulary) (o : Order) : Except VocabError (List Nat) := do
  v.checkArea o.source
  match o.destination with
  | none => .ok [o.kind.index, v.sourceOffset + o.source]
  | some area =>
      if o.kind.allowsDestination then do
        v.checkArea area
        .ok [o.kind.index, v.sourceOffset + o.source, v.destinationIndex area]
      else .error (.unexpectedDestination o.kind)

/-- The vector with ones at the given entries. -/
def indicator (v : Vocabulary) (marks : List Nat) : List Float32 :=
  (List.range v.size).map fun i => if i ∈ marks then 1 else 0

/-- The vector of an order, or of none. -/
def encode (v : Vocabulary) : Option Order → Except VocabError (List Float32)
  | none => .ok (v.indicator [])
  | some o => do .ok (v.indicator (← v.hotEntries o))

/-- The vectors of the first `maxUnits` orders one after the other, filled
up with zeros to `maxUnits` vectors. -/
def encodePadded (v : Vocabulary) (orders : List (Option Order)) (maxUnits : Nat) :
    Except VocabError (List Float32) := do
  let rows ← (orders.take maxUnits).mapM v.encode
  .ok (rows.flatten ++ List.replicate ((maxUnits - rows.length) * v.size) 0)

/-- The only positive entry of a block of a vector, counted from the start
of the block. -/
def onlyHot (block : String) (entries : List Float32) : Except VocabError (Option Nat) :=
  match entries.zipIdx.filter (fun e => 0 < e.1) with
  | [] => .ok none
  | [e] => .ok (some e.2)
  | _ => .error (.multipleHot block)

/-- The order that has these entries set, counted from the start of their
blocks. -/
def ofEntries (kind source destination : Option Nat) : Except VocabError (Option Order) :=
  match kind.bind OrderKind.ofIndex?, source with
  | none, none => if destination.isNone then .ok none else .error .missingType
  | none, some _ => .error .missingType
  | some _, none => .error .missingSource
  | some kind, some source =>
      if destination.isNone || kind.allowsDestination then
        .ok (some { kind, source, destination })
      else .error (.unexpectedDestination kind)

/-- The order that a vector was written for. -/
def decode (v : Vocabulary) (vector : List Float32) : Except VocabError (Option Order) :=
  if vector.length ≠ v.size then .error (.lengthMismatch v.size vector.length)
  else do
    let kind ← onlyHot "type" (vector.take numKinds)
    let source ← onlyHot "source" ((vector.drop v.sourceOffset).take v.numAreas)
    let destination ← onlyHot "destination" (vector.drop v.destinationOffset)
    ofEntries kind source destination

/-- The entry that a prediction of this order is judged by: its kind. -/
def targetIndex (_ : Vocabulary) (o : Order) : Nat := o.kind.index

end Vocabulary
end OrderDecoding
