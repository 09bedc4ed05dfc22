/-
# `Strategy.Sample` — independent random walks

Each sample walks over the units on its own, with its own sequence, score
and random stream: sample `i` draws from the generator seeded with
`seed + i`, wrapping, so that a seed reproduces the same samples however
many are asked for.  The samples move in step, one unit at a time, and
the workers see to each step sample by sample.

What is drawn from is the constrained row, tempered and cut to its best
entries; what is scored is the constrained row as it is.
-/
import OrderDecoding.Candidate
import OrderDecoding.Position
import OrderDecoding.Score.Draw

namespace OrderDecoding
namespace Sample

/-- What to sample.  `topK` is the number of entries to draw from, zero for
all. -/
structure Params (α : Type) where
  numSamples : Nat
  temperature : α
  topK : Nat
  constrained : Bool
  seed : UInt64

/-- A sample under way. -/
structure Walker (α : Type) where
  path : Path α
  source : Generator

variable {α : Type} [Score α]

/-- The samples before their first step. -/
def start (params : Params α) : List (Walker α) :=
  (List.range params.numSamples).map fun i =>
    { path := Path.start, source := Generator.ofSeed (params.seed + UInt64.ofNat i) }

/-- One sample moves on by one unit. -/
def walk (p : Position α) (params : Params α) (w : Walker α) :
    Except DecodeError (Walker α) := do
  let sequence := w.path.sequence
  let scores ← p.scores sequence
  let constraint : Constraint := { vocab := p.vocab, enabled := params.constrained }
  let row := (constraint.constrain sequence scores).row
  if Row.hasMass row then
    match Row.draw row params.temperature params.topK w.source with
    | (none, _) => .error (.degenerate sequence.length)
    | (some index, source) => do
        let choice ← p.choose sequence.length index
        .ok { path := w.path.extend choice (w.path.score + Row.logProb row index), source }
  else .error (.degenerate sequence.length)

def candidate (w : Walker α) : Candidate α :=
  { choices := w.path.sequence.choices, score := w.path.score, origin := .sample }

/-- All samples, in the order of their seeds. -/
def run (p : Position α) (params : Params α) : Except DecodeError (List (Candidate α)) :=
  if params.numSamples = 0 then .error (.argument .noSamples)
  else do
    checkTemperature params.temperature
    let walkers ←
      p.takeAll (fun walkers => p.workers.forkJoin walkers (walk p params)) (start params)
    .ok (walkers.map candidate)

end Sample
end OrderDecoding
