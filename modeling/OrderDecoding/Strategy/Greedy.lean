/-
# `Strategy.Greedy` — the best entry at every step

One pass over the units, taking the best entry of each constrained row.
A positive temperature would change no comparison, so the rows are
compared as they are; the temperature is only checked.  The score is what
the model gives the choices, constraint or no constraint: it is summed
over the rows BEFORE the mask.
-/
import OrderDecoding.Candidate
import OrderDecoding.Position

namespace OrderDecoding
namespace Greedy

variable {α : Type} [Score α]

/-- Chooses for the next unit. -/
def step (p : Position α) (c : Constraint) (path : Path α) : Except DecodeError (Path α) := do
  let row ← p.scores path.sequence
  match Row.argmax (c.constrain path.sequence row).row with
  | none => .error (.degenerate path.sequence.length)
  | some index => do
      let choice ← p.choose path.sequence.length index
      .ok (path.extend choice (path.score + Row.logProb row index))

def decode (p : Position α) (temperature : α) (constrained : Bool) :
    Except DecodeError (Candidate α) := do
  checkTemperature temperature
  let path ← p.takeAll (step p { vocab := p.vocab, enabled := constrained }) Path.start
  .ok { choices := path.sequence.choices, score := path.score, origin := .greedy }

end Greedy
end OrderDecoding
