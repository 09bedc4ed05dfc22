/-
# `Settings` — the options of decoding

One record holds what every strategy can be told; each strategy takes its
own part of it.  `check` is what all of them rely on, and its tests come in
a fixed order, so that settings with several faults always give the same
one.  It works out the size of the vocabulary in a word, which is the size
itself unless the map has close to 2^63 areas.
-/
import OrderDecoding.Pool

namespace OrderDecoding

structure Settings (α : Type) where
  /-- Places of the beam search. -/
  beamWidth : Nat
  /-- Samples drawn when only sampling. -/
  numSamples : Nat
  /-- Candidates of a pool. -/
  numCandidates : Nat
  /-- What rows are divided by before a draw, if it is positive. -/
  temperature : α
  /-- Entries that a draw chooses from; zero for all. -/
  topK : Nat
  /-- No two moves or retreats to one area. -/
  constrained : Bool
  /-- Areas of the map. -/
  numAreas : Nat
  /-- The most units of one list. -/
  maxUnits : Nat
  /-- Samples for each candidate missing from a pool. -/
  oversample : Nat
  /-- Threads to spread the work over; none are started for fewer than
  two. -/
  threads : Nat
  /-- What sampling starts from; zero for a fresh start every time. -/
  seed : UInt64

namespace Settings

variable {α : Type} [Score α]

def default : Settings α :=
  { beamWidth := 5
    numSamples := 10
    numCandidates := 10
    temperature := 1
    topK := 20
    constrained := true
    numAreas := 81
    maxUnits := 17
    oversample := 2
    threads := 1
    seed := 0 }

def vocab (s : Settings α) : Vocabulary := { numAreas := s.numAreas }

/-- The size of the vocabulary as a word holds it. -/
def wordSize (s : Settings α) : Nat := s.vocab.size % Word.bound

/-- Refuses settings that no strategy could work with. -/
def check (s : Settings α) : Except DecodeError Unit :=
  if s.numAreas = 0 then .error (.argument .noAreas)
  else if s.beamWidth = 0 ∨ s.wordSize < s.beamWidth then
    .error (.argument (.beamWidthSetting s.beamWidth s.wordSize))
  else if s.numSamples = 0 then .error (.argument .noSamples)
  else if s.numCandidates = 0 then .error (.argument .noCandidates)
  else checkTemperature s.temperature

/-- The part that sampling takes. -/
def sampleParams (s : Settings α) (numSamples : Nat) (seed : UInt64) : Sample.Params α :=
  { numSamples
    temperature := s.temperature
    topK := s.topK
    constrained := s.constrained
    seed }

/-- The part that a pool takes. -/
def poolParams (s : Settings α) (seed : UInt64) : Pool.Params α :=
  { numCandidates := s.numCandidates
    beamWidth := s.beamWidth
    temperature := s.temperature
    topK := s.topK
    constrained := s.constrained
    oversample := s.oversample
    seed }

end Settings
end OrderDecoding
