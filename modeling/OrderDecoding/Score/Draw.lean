/-
# `Score.Draw` — drawing an entry of a row

A row is drawn from by its softmax, after it has been divided by a
temperature and cut to its best entries.  The draw itself (`pick`) is
INVERSE TRANSFORM SAMPLING: the weights are laid end to end, and the entry
is the one whose stretch holds a number drawn from the unit interval.
Rounding can leave the end of the last stretch below that number; the
last entry with a positive weight answers then, never one without weight.
-/
import OrderDecoding.Random
import OrderDecoding.Score.Row

namespace OrderDecoding
namespace Row

open Score

/-! ## Picking -/

section

variable {α : Type} [Zero α] [Add α] [LT α] [LE α] [DecidableLT α] [DecidableLE α]

/-- Walks over the weights that are left: `covered` is the length of the
stretches already passed, `last` the last entry with a positive weight. -/
def pickFrom (r covered : α) (last : Option Nat) : List (α × Nat) → Option Nat
  | [] => last
  | (w, i) :: rest =>
      if w ≤ 0 then pickFrom r covered last rest
      else if r < covered + w then some i
      else pickFrom r (covered + w) (some i) rest

/-- The entry whose stretch holds `r`. -/
def pick (weights : List α) (r : α) : Option Nat := pickFrom r 0 none weights.zipIdx

end

/-! ## Drawing -/

variable {α : Type} [Score α]

/-- Draws by weight.  Weights that are not finite give nothing, and leave
the generator alone. -/
def weightedSample (weights : List α) (g : Generator) : Option Nat × Generator :=
  if weights.all isFinite then
    let (r, g) := g.nextUnit (α := α)
    (pick weights r, g)
  else (none, g)

/-- The smallest temperature that a row is divided by. -/
def minTemperature : α := 1 / count 100000000

/-- A temperature brought up to `minTemperature`. -/
def clampTemperature (temperature : α) : α :=
  if minTemperature < temperature then temperature else minTemperature

/-- Draws an entry of a masked row at a temperature, from its best `k`. -/
def draw (row : List α) (temperature : α) (k : Nat) (g : Generator) : Option Nat × Generator :=
  match softmax (retainTopK (scale row (clampTemperature temperature)) k) with
  | none => (none, g)
  | some weights => weightedSample weights g

end Row
end OrderDecoding
