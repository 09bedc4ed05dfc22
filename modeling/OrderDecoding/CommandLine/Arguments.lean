/-
# `CommandLine.Arguments` — what a command line says

A command line is a list of groups: a SWITCH alone, or a flag followed by
its value, which is taken as it stands even where it looks like a flag.
Groups may come in any order and repeat; of several groups with one flag
the last counts.  Reading stops at the first group that is none, or at a
call for help.
-/
import OrderDecoding.Decimal.Numeral

namespace OrderDecoding
namespace CommandLine

/-- What to decode with. -/
inductive Mode where
  | greedy
  | beam
  | sample
  | candidates
deriving DecidableEq

namespace Mode

def ofName? : String → Option Mode
  | "greedy" => some greedy
  | "beam" => some beam
  | "sample" => some sample
  | "candidates" => some candidates
  | _ => none

/-- The name of a mode in a summary. -/
def title : Mode → String
  | greedy => "Greedy"
  | beam => "Beam"
  | sample => "Sample"
  | candidates => "Candidates"

end Mode

/-- What was said, flag by flag. -/
structure Arguments where
  input : Option String := none
  settings : Option String := none
  mode : Option Mode := none
  beamWidth : Option Nat := none
  samples : Option Nat := none
  candidates : Option Nat := none
  temperature : Option Float := none
  topK : Option Nat := none
  unconstrained : Bool := false
  seed : Option UInt64 := none
  threads : Option Nat := none
  quiet : Bool := false

/-- Why a command line is not carried out. -/
inductive Stop where
  | help
  | unknown (argument : String)
  | missingValue (flag : String)
  | invalidValue (flag text : String)
deriving DecidableEq

namespace Arguments

/-- A switch sets something by standing there. -/
def switch? : String → Option (Arguments → Arguments)
  | "--unconstrained" => some fun a => { a with unconstrained := true }
  | "--quiet" => some fun a => { a with quiet := true }
  | _ => none

/-- A flag sets something to the value that follows it, if that reads as
one. -/
def flag? : String → Option (String → Option (Arguments → Arguments))
  | "--input" => some fun text => some fun a => { a with input := some text }
  | "--config" => some fun text => some fun a => { a with settings := some text }
  | "--mode" => some fun text =>
      (Mode.ofName? text).map fun m a => { a with mode := some m }
  | "--beam-width" => some fun text =>
      (Decimal.natural? text).map fun n a => { a with beamWidth := some n }
  | "--samples" => some fun text =>
      (Decimal.natural? text).map fun n a => { a with samples := some n }
  | "--candidates" => some fun text =>
      (Decimal.natural? text).map fun n a => { a with candidates := some n }
  | "--temperature" => some fun text =>
      (Decimal.float? text).map fun x a => { a with temperature := some x }
  | "--top-k" => some fun text =>
      (Decimal.natural? text).map fun n a => { a with topK := some n }
  | "--seed" => some fun text =>
      (Decimal.natural? text).map fun n a => { a with seed := some (UInt64.ofNat n) }
  | "--threads" => some fun text =>
      (Decimal.natural? text).map fun n a => { a with threads := some n }
  | _ => none

/-- Adds what a list of arguments says to what was said before. -/
def readFrom (said : Arguments) : List String → Except Stop Arguments
  | [] => .ok said
  | argument :: rest =>
      match switch? argument, flag? argument with
      | some set, _ => readFrom (set said) rest
      | none, some value =>
          match rest with
          | [] => .error (.missingValue argument)
          | text :: rest =>
              match value text with
              | some set => readFrom (set said) rest
              | none => .error (.invalidValue argument text)
      | none, none =>
          .error (if argument == "--help" || argument == "-h" then .help else .unknown argument)

def read (arguments : List String) : Except Stop Arguments := readFrom {} arguments

end Arguments

/-- How the program is called. -/
def usage : List String :=
  [ "Usage: realpolitik-decoder [OPTIONS] < position.json"
  , ""
  , "Options:"
  , "  --input FILE      Position file (default: stdin)"
  , "  --config FILE     JSON decode config; flags override it"
  , "  --mode MODE       greedy | beam | sample | candidates (default: candidates)"
  , "  --beam-width N    Beams kept per step (default: 5)"
  , "  --samples N       Samples drawn in sample mode (default: 10)"
  , "  --candidates N    Candidate pool size (default: 10)"
  , "  --temperature T   Logit temperature (default: 1.0)"
  , "  --top-k N         Sample from the top N entries, 0 disables (default: 20)"
  , "  --unconstrained   Allow repeated destinations"
  , "  --seed N          Random seed, 0 for entropy (default: 0)"
  , "  --threads N       Worker threads (default: 1)"
  , "  --quiet           Suppress the summary line" ]

def Stop.messages : Stop → List String
  | help => usage
  | unknown argument => ("Unknown argument: " ++ argument) :: usage
  | missingValue flag => ["missing value for " ++ flag]
  | invalidValue flag text => ["invalid " ++ flag ++ " value: " ++ text]

end CommandLine
end OrderDecoding
