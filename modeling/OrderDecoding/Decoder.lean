/-
# `Decoder` — a scorer with its settings

A decoder is made once, from settings that pass their check (`checked`),
and then asked about one unit list after the other.  Each question binds
the units first: too many of them, or one outside the map, is the
caller's mistake whatever the strategy.

With a seed in the settings every sampling starts from it.  Without one,
the decoder draws a start from a generator of its own, which is then
handed back with the answer.

Settings for more than one thread need workers, and a decoder whose
workers cannot be started is not made.
-/
import OrderDecoding.Evaluation
import OrderDecoding.Settings
import OrderDecoding.Strategy.Greedy

namespace OrderDecoding

structure Decoder (α : Type) [Score α] where
  scorer : Scorer α
  settings : Settings α
  source : Generator
  workers : Workers
  checked : settings.check = .ok ()

namespace Decoder

variable {α : Type} [Score α]

/-- Makes a decoder; `fresh` starts its generator, and `start` its
workers. -/
def create (scorer : Scorer α) (settings : Settings α) (fresh : UInt64)
    (start : Nat → Except String Schedule) : Except DecodeError (Decoder α) :=
  match h : settings.check with
  | .error e => .error e
  | .ok () =>
      match Workers.hire start settings.threads with
      | .error reason => .error (.argument (.noWorkers reason))
      | .ok workers =>
          .ok { scorer, settings, source := Generator.ofSeed fresh, workers, checked := h }

/-- Binds units to the decoder's scorer and its workers. -/
def position (d : Decoder α) (units : UnitList) : Except DecodeError (Position α) :=
  if d.settings.maxUnits < units.length then
    .error (.argument (.tooManyUnits units.length d.settings.maxUnits))
  else do
    .ok ((← Position.ofUnits d.scorer units d.settings.vocab).withWorkers d.workers)

/-- The seed of the next sampling, and the decoder after it. -/
def nextSeed (d : Decoder α) : UInt64 × Decoder α :=
  if d.settings.seed ≠ 0 then (d.settings.seed, d)
  else
    let (seed, source) := d.source.next
    (seed, { d with source })

def greedy (d : Decoder α) (units : UnitList) : Except DecodeError (Candidate α) := do
  Greedy.decode (← d.position units) d.settings.temperature d.settings.constrained

def beam (d : Decoder α) (units : UnitList) : Except DecodeError (Beam.Found α) := do
  Beam.search (← d.position units) d.settings.beamWidth d.settings.constrained

/-- Samples, and the decoder to go on with. -/
def sample (d : Decoder α) (units : UnitList) :
    Except DecodeError (List (Candidate α)) × Decoder α :=
  let (seed, d') := d.nextSeed
  let params := d.settings.sampleParams d.settings.numSamples seed
  (do Sample.run (← d.position units) params, d')

/-- A pool of candidates, and the decoder to go on with. -/
def candidates (d : Decoder α) (units : UnitList) :
    Except DecodeError (List (Candidate α)) × Decoder α :=
  let (seed, d') := d.nextSeed
  (do Pool.generate (← d.position units) (d.settings.poolParams seed), d')

def rescore (d : Decoder α) (units : UnitList) (candidates : List (Candidate α)) :
    Except DecodeError (List (Candidate α)) := do
  Pool.rescore (← d.position units) candidates

def evaluate (d : Decoder α) (units : UnitList) (targets : List Order) (k : Nat) :
    Except DecodeError (Evaluation α) := do
  Evaluation.ofTargets (← d.position units) targets k

end Decoder
end OrderDecoding
