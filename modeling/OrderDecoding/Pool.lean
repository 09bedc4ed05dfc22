/-
# `Pool` — distinct candidates of comparable score

A pool merges what a beam search and a number of samples found.  It
SELECTS first: of candidates with the same signature the one that comes
first stays, whatever its score, and of those the first few are taken.
Then it RESCORES what it kept by replaying it, so that the scores can be
compared whichever strategy a candidate came from.  The workers replay
candidate by candidate.
-/
import OrderDecoding.Strategy.Beam
import OrderDecoding.Strategy.Sample

namespace OrderDecoding
namespace Pool

variable {α : Type}

/-- The candidates without those whose signature came before. -/
def distinct : List (Candidate α) → List (Candidate α)
  | [] => []
  | c :: rest => c :: (distinct rest).filter fun d => d.signature ≠ c.signature

/-- The first `n` distinct candidates; the very first one if that leaves
none. -/
def select (n : Nat) (candidates : List (Candidate α)) : List (Candidate α) :=
  match (distinct candidates).take n with
  | [] => candidates.take 1
  | kept => kept

variable [Score α]

/-- The candidates with the log-probabilities of their choices as
scores. -/
def rescore (p : Position α) (candidates : List (Candidate α)) :
    Except DecodeError (List (Candidate α)) :=
  p.workers.forkJoin candidates fun c => do
    let score ← p.sequenceLogProb c.choices
    .ok { c with score }

/-- The pool of at most `n` of the given candidates, those of the beam
search first. -/
def build (p : Position α) (beam sampled : List (Candidate α)) (n : Nat) :
    Except DecodeError (List (Candidate α)) :=
  rescore p (select n (beam ++ sampled))

/-- What to fill a pool with.  `oversample` samples are drawn for each
candidate that the beam search leaves missing. -/
structure Params (α : Type) where
  numCandidates : Nat
  beamWidth : Nat
  temperature : α
  topK : Nat
  constrained : Bool
  oversample : Nat
  seed : UInt64

/-- The samples that make up for `missing` candidates. -/
def Params.samples (params : Params α) (missing : Nat) : Sample.Params α :=
  { numSamples := missing * params.oversample
    temperature := params.temperature
    topK := params.topK
    constrained := params.constrained
    seed := params.seed }

/-- Draws the samples that make up for `missing` candidates, if there are
any to draw. -/
def topUp (p : Position α) (params : Params α) (missing : Nat) :
    Except DecodeError (List (Candidate α)) :=
  let samples := params.samples missing
  if samples.numSamples = 0 then .ok [] else Sample.run p samples

/-- A beam search, topped up with samples where it falls short. -/
def generate (p : Position α) (params : Params α) : Except DecodeError (List (Candidate α)) :=
  if params.numCandidates = 0 then .error (.argument .noCandidates)
  else do
    let found ← Beam.search p (min params.beamWidth params.numCandidates) params.constrained
    let sampled ← topUp p params (params.numCandidates - found.candidates.length)
    build p found.candidates sampled params.numCandidates

end Pool
end OrderDecoding
