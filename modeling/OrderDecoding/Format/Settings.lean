/-
# `Format.Settings` — settings as JSON

A settings text names the options that differ from the defaults.  Reading
it gives the defaults with those options replaced; `ofText` also checks
what comes out, so that no text gives settings that do not pass.
-/
import OrderDecoding.Json.Record
import OrderDecoding.Settings

namespace OrderDecoding
namespace Settings

open Json

def fields : List (RecordField (Settings Float)) :=
  [ .of "beam_width" .anywhere natural fun s beamWidth => { s with beamWidth }
  , .of "num_samples" .anywhere natural fun s numSamples => { s with numSamples }
  , .of "num_candidates" .anywhere natural fun s numCandidates => { s with numCandidates }
  , .of "temperature" .anywhere float fun s temperature => { s with temperature }
  , .of "top_k" .anywhere natural fun s topK => { s with topK }
  , .of "constrain_destinations" .anywhere bool fun s constrained => { s with constrained }
  , .of "num_areas" .anywhere natural fun s numAreas => { s with numAreas }
  , .of "max_units" .anywhere natural fun s maxUnits => { s with maxUnits }
  , .of "oversample" .anywhere natural fun s oversample => { s with oversample }
  , .of "threads" .anywhere natural fun s threads => { s with threads }
  , .of "seed" .anywhere natural fun s seed => { s with seed := UInt64.ofNat seed } ]

def reader : Reader (Settings Float) := record fields default

/-- The settings of a text, if they pass their check. -/
def ofText (text : String) : Except DecodeError (Settings Float) :=
  match readText reader text with
  | .error fault => .error (.settings fault)
  | .ok s => do
      s.check
      .ok s

end Settings
end OrderDecoding
