/-
# `Error` — why a decode fails

Failures are kept as causes; their wording is in the `message` functions
and nowhere else, save what is said of a text that is not JSON, which comes
from outside.  A caller's mistake (`ArgumentError`) is told apart from
a scorer that fails (`ScorerError`), from a row that no scorer should have
returned (`RowError`), and from a step at which a valid row leaves nothing
to choose.  One cause is nobody's answer: a search that asks for the first
of no paths (`outOfPaths`) breaks off.
-/
import OrderDecoding.Json.Fault
import OrderDecoding.Score
import OrderDecoding.Vocabulary

namespace OrderDecoding

/-- Why a scorer has no row to give. -/
inductive ScorerError where
  | unavailable (reason : String)
  | inference (reason : String)
  | missingStep (step : Nat)
deriving DecidableEq

def ScorerError.message : ScorerError → String
  | unavailable reason => "scorer unavailable: " ++ reason
  | inference reason => "inference failed: " ++ reason
  | missingStep step => "no scores for step " ++ toString step

/-- What is wrong with a row that a scorer returned. -/
inductive RowError where
  | length (expected found : Nat)
  | entry (index : Nat) (value : NonFinite)
deriving DecidableEq

def RowError.message : RowError → String
  | length expected found =>
      "expected " ++ toString expected ++ " entries, got " ++ toString found
  | entry index value => "entry " ++ toString index ++ " is " ++ value.text

/-- What is wrong with what the caller asked for. -/
inductive ArgumentError where
  | repeatedArea (area : Area)
  | unitOutOfRange (area : Area) (numAreas : Nat)
  | tooManyUnits (units limit : Nat)
  | stepPastEnd (step units : Nat)
  | tooManyOrders (orders units : Nat)
  | indexOutOfRange (step index size : Nat)
  | orderMismatch (step index : Nat) (order : Order)
  | beamWidth (width size : Nat)
  | beamWidthSetting (width size : Nat)
  | noAreas
  | noSamples
  | noCandidates
  | temperature (value : NonFinite)
  | noWorkers (reason : String)
  | unreadableSettings (path reason : String)
deriving DecidableEq

def ArgumentError.message : ArgumentError → String
  | repeatedArea area => "area " ++ toString area ++ " appears twice in the unit list"
  | unitOutOfRange area numAreas =>
      "unit area " ++ toString area ++ " out of range for a " ++ toString numAreas
        ++ "-area map"
  | tooManyUnits units limit =>
      toString units ++ " units exceed the limit of " ++ toString limit
  | stepPastEnd step units =>
      "step " ++ toString step ++ " past the last of " ++ toString units ++ " units"
  | tooManyOrders orders units =>
      toString orders ++ " orders for " ++ toString units ++ " units"
  | indexOutOfRange step index size =>
      "step " ++ toString step ++ ": index " ++ toString index ++ " outside a "
        ++ toString size ++ "-entry vocabulary"
  | orderMismatch step index order =>
      "step " ++ toString step ++ ": order " ++ order.describe ++ " does not match index "
        ++ toString index
  | beamWidth width size =>
      "beam width " ++ toString width ++ " outside 1..=" ++ toString size
  | beamWidthSetting width size =>
      "beam_width " ++ toString width ++ " outside 1..=" ++ toString size
  | noAreas => "num_areas must be at least 1"
  | noSamples => "num_samples must be at least 1"
  | noCandidates => "num_candidates must be at least 1"
  | temperature value => "temperature must be finite, got " ++ value.text
  | noWorkers reason => "cannot build thread pool: " ++ reason
  | unreadableSettings path reason => "cannot read config " ++ path ++ ": " ++ reason

/-- Why a decode fails. -/
inductive DecodeError where
  | argument (cause : ArgumentError)
  | scorer (cause : ScorerError)
  | scores (step : Nat) (cause : RowError)
  | degenerate (step : Nat)
  | vocabulary (cause : VocabError)
  | settings (cause : Json.Fault)
  /-- Nothing was caught: the run ends where it stands. -/
  | outOfPaths
deriving DecidableEq

/-- The wording of a failure.  That of a fault in a JSON text is not ours. -/
def DecodeError.message (wording : Json.Fault → String) : DecodeError → String
  | argument cause => "invalid argument: " ++ cause.message
  | scorer cause => "scorer failed: " ++ cause.message
  | scores step cause => "invalid scores at step " ++ toString step ++ ": " ++ cause.message
  | degenerate step => "no selectable order at step " ++ toString step
  | vocabulary cause => cause.message
  | settings cause => "invalid config: " ++ wording cause
  | outOfPaths => "index out of bounds: the len is 0 but the index is 0"

end OrderDecoding
