/-
# `Score.Row` — rows of scores

A row has one score per entry of the vocabulary.  This module turns rows
into distributions (`logSoftmax`, `softmax`), picks from them (`argmax`,
`topK`) and narrows them (`scale`, `retainTopK`).

Two rules run through all of it.  An entry at `-∞` is MASKED: no function
here picks it while another is left.  And ties go to the lower index, so
that the same row always gives the same answer.
-/
import OrderDecoding.Score

namespace OrderDecoding
namespace Row

open Score

variable {α : Type} [Score α]

/-! ## Distributions -/

/-- The largest entry; `-∞` if there is none. -/
def maximum (row : List α) : α :=
  row.foldl (fun m s => if m < s then s else m) negInf

/-- The logarithms of the softmax of a row.  Where nothing can be chosen
all entries are `-∞`. -/
def logSoftmax (row : List α) : List α :=
  let m := maximum row
  if m ≤ negInf then row.map fun _ => negInf
  else
    let logZ := m + log (total (row.map fun s => exp (s - m)))
    row.map fun s => s - logZ

/-- The log-probability of one entry of a row. -/
def logProb (row : List α) (index : Nat) : α :=
  ((logSoftmax row)[index]?).getD negInf

/-- The softmax of a row; `none` where nothing can be chosen.  Entries at
`+∞` share all the mass. -/
def softmax (row : List α) : Option (List α) :=
  let m := maximum row
  if m ≤ negInf then none
  else if posInf ≤ m then
    let share := 1 / count (row.filter fun s => posInf ≤ s).length
    some (row.map fun s => if posInf ≤ s then share else 0)
  else
    let weights := row.map fun s => exp (s - m)
    let z := total weights
    some (weights.map fun w => w / z)

/-- Some entry can be chosen. -/
def hasMass (row : List α) : Bool := row.any fun s => negInf < s

/-- Divides by a positive temperature; any other leaves the row alone. -/
def scale (row : List α) (temperature : α) : List α :=
  if 0 < temperature then row.map fun s => s / temperature else row

/-! ## The best entry -/

/-- The better of the best entry so far and the next one. -/
def better (best : Option (α × Nat)) (entry : α × Nat) : Option (α × Nat) :=
  if entry.1 ≤ negInf then best
  else
    match best with
    | none => some entry
    | some b => if entry.1 ≤ b.1 then some b else some entry

/-- The first of the largest entries; `none` if all are masked. -/
def argmax (row : List α) : Option Nat :=
  (row.zipIdx.foldl better none).map (·.2)

/-! ## Ranking

The best `k` entries are kept while the row is walked through, worst
first, so that most entries are turned away by one comparison. -/

/-- `a` comes before `b` in a ranking: its score is higher, or it is the
same and the index is lower. -/
def outranks (a b : α × Nat) : Bool :=
  if ranks b.1 a.1 then !ranks a.1 b.1 || decide (a.2 ≤ b.2) else false

/-- Puts an entry into a list that is kept worst first. -/
def insertRanked (entry : α × Nat) : List (α × Nat) → List (α × Nat)
  | [] => [entry]
  | worst :: kept =>
      if outranks entry worst then worst :: insertRanked entry kept
      else entry :: worst :: kept

/-- Puts an entry into a list of the best `k` so far. -/
def keepBest (k : Nat) (kept : List (α × Nat)) (entry : α × Nat) : List (α × Nat) :=
  let grown := insertRanked entry kept
  grown.drop (grown.length - k)

/-- The best `k` entries with their indices, best first. -/
def best (row : List α) (k : Nat) : List (α × Nat) :=
  (row.zipIdx.foldl (keepBest k) []).reverse

/-- The indices of the best `k` entries, best first. -/
def topK (row : List α) (k : Nat) : List Nat := (best row k).map (·.2)

/-- Masks what is below the `k`-th best entry.  Entries that tie with it
stay.  Zero means no limit. -/
def retainTopK (row : List α) (k : Nat) : List α :=
  if k = 0 ∨ row.length ≤ k then row
  else
    match (best row k).getLast? with
    | none => row
    | some (threshold, _) => row.map fun s => if s < threshold then negInf else s

end Row
end OrderDecoding
