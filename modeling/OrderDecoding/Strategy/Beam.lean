/-
# `Strategy.Beam` — several paths side by side

A beam search keeps the best `width` paths.  At each step every path is
extended by every entry of its own constrained row, and all extensions
compete for the places of the next step: the higher score first, then the
better parent, then the lower entry.  A masked extension, at `-∞`, never
wins a place, so fewer than `width` paths survive only where there are
fewer to extend to.  The rows are what the workers see to, path by path.
-/
import OrderDecoding.Candidate
import OrderDecoding.Position

namespace OrderDecoding
namespace Beam

variable {α : Type} [Score α]

/-- A path, the entry it is to be extended by, and the score that it then
has. -/
structure Extension (α : Type) where
  parent : Path α
  index : Nat
  score : α

/-- The log-probabilities from which a path is extended. -/
def row (p : Position α) (c : Constraint) (path : Path α) : Except DecodeError (List α) := do
  let scores ← p.scores path.sequence
  let constrained := (c.constrain path.sequence (Row.logSoftmax scores)).row
  if Row.hasMass constrained then .ok constrained
  else .error (.degenerate path.sequence.length)

/-- A path extended by each entry of a row. -/
def extensions (path : Path α) (row : List α) : List (Extension α) :=
  row.zipIdx.map fun (s, index) => { parent := path, index, score := path.score + s }

/-- The best `width` extensions, best first, without those that are
masked. -/
def survivors (width : Nat) (all : List (Extension α)) : List (Extension α) :=
  ((Row.topK (all.map (·.score)) width).filterMap (all[·]?)).takeWhile fun e =>
    !decide (e.score ≤ Score.negInf)

/-- The path that an extension stands for. -/
def follow (p : Position α) (e : Extension α) : Except DecodeError (Path α) := do
  let choice ← p.choose e.parent.sequence.length e.index
  .ok (e.parent.extend choice e.score)

/-- All paths move on by one unit. -/
def step (p : Position α) (c : Constraint) (width : Nat) (paths : List (Path α)) :
    Except DecodeError (List (Path α)) := do
  let rows ← p.workers.forkJoin paths (row p c)
  let all := (paths.zip rows).flatMap fun (path, row) => extensions path row
  (survivors width all).mapM (follow p)

/-- What a search comes to: the best candidate, and all of them, best
first. -/
structure Found (α : Type) where
  best : Candidate α
  candidates : List (Candidate α)
deriving DecidableEq

def candidate (path : Path α) : Candidate α :=
  { choices := path.sequence.choices, score := path.score, origin := .beam }

/-- Searches with `width` places.  Without units every place holds the
empty path. -/
def search (p : Position α) (width : Nat) (constrained : Bool) :
    Except DecodeError (Found α) :=
  if width = 0 ∨ p.vocab.size < width then
    .error (.argument (.beamWidth width p.vocab.size))
  else if p.numSteps = 0 then
    .ok
      { best := candidate Path.start
        candidates := List.replicate width (candidate Path.start) }
  else do
    let constraint := { vocab := p.vocab, enabled := constrained }
    match ← p.takeAll (step p constraint width) [Path.start] with
    | [] => .error .outOfPaths
    | best :: rest =>
        .ok { best := candidate best, candidates := (best :: rest).map candidate }

end Beam
end OrderDecoding
