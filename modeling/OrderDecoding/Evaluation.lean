/-
# `Evaluation` — a scorer judged by known orders

The orders that were really given (the targets) are replayed, and at each
step the scorer's row is held against the target there.  A target is
judged by its kind: that is the entry whose log-probability is summed, and
the one that has to be among the best for a HIT.  The loss takes in the
whole order: it is the divergence of the row's softmax from the target's
vector, spread evenly over its ones, averaged over the steps.
-/
import OrderDecoding.Position
import OrderDecoding.Vocabulary.Vector

namespace OrderDecoding

/-- What an evaluation comes to. -/
structure Evaluation (α : Type) where
  steps : Nat
  logLikelihood : α
  /-- The divergences of all steps together. -/
  divergence : α
  /-- Steps whose best entry is the target's. -/
  top1Hits : Nat
  /-- Steps with the target's entry among the best `k`. -/
  topKHits : Nat

namespace Evaluation

variable {α : Type} [Score α]

def empty : Evaluation α :=
  { steps := 0, logLikelihood := 0, divergence := 0, top1Hits := 0, topKHits := 0 }

/-- A sum over the steps as a mean; zero where there are none. -/
def mean (e : Evaluation α) (sum : α) : α :=
  if e.steps = 0 then 0 else sum / Score.count e.steps

def loss (e : Evaluation α) : α := e.mean e.divergence

def top1Accuracy (e : Evaluation α) : α := e.mean (Score.count e.top1Hits)

def topKAccuracy (e : Evaluation α) : α := e.mean (Score.count e.topKHits)

/-- The divergence of a distribution from an even one over some entries. -/
def divergenceFrom (logProbs : List α) (marks : List Nat) : α :=
  let weight := 1 / Score.count marks.length
  Score.total
    (marks.map fun i => weight * (Score.log weight - (logProbs[i]?).getD Score.negInf))

/-- Takes in one step: a row and the entries of its target. -/
def addStep (e : Evaluation α) (k target : Nat) (marks : List Nat) (row : List α) :
    Evaluation α :=
  { steps := e.steps + 1
    logLikelihood := e.logLikelihood + Row.logProb row target
    divergence := e.divergence + divergenceFrom (Row.logSoftmax row) marks
    top1Hits := e.top1Hits + if Row.argmax row = some target then 1 else 0
    topKHits := e.topKHits + if (Row.topK row k).contains target then 1 else 0 }

/-- Holds the rows of a replay against its targets, one after the other. -/
def ofRows (v : Vocabulary) (k : Nat) :
    Evaluation α → List (List α × Order) → Except DecodeError (Evaluation α)
  | e, [] => .ok e
  | e, (row, target) :: rest =>
      match v.hotEntries target with
      | .error cause => .error (.vocabulary cause)
      | .ok marks => ofRows v k (e.addStep k (v.targetIndex target) marks row) rest

/-- Replays the targets and judges every step.  All rows are asked for
before the first target is encoded. -/
def ofTargets (p : Position α) (targets : List Order) (k : Nat) :
    Except DecodeError (Evaluation α) := do
  let rows ← p.replay targets
  ofRows p.vocab k empty (rows.zip targets)

end Evaluation
end OrderDecoding
