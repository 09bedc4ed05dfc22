/-
# `CommandLine.Run` — one run of the program

A run reads a request and settings, lays the layers of settings over each
other — the defaults, the settings file, the size of the map that the
request names, the flags, later ones winning — and decodes.  What it
comes to is a value (`Outcome`): the lines to print, or why there are
none.  The texts of the files are handed in; nothing here reads or prints.

The request is looked at before the settings file, and a settings file has
to pass its check by itself, before any layer is laid over it.
-/
import OrderDecoding.CommandLine.Arguments
import OrderDecoding.Decimal.Shortest
import OrderDecoding.Decoder
import OrderDecoding.Format.Request
import OrderDecoding.Format.Settings

namespace OrderDecoding
namespace CommandLine

/-- A line of output: a candidate and its place among the answers. -/
structure Line where
  rank : Nat
  candidate : Candidate Float

/-- Writes a line as JSON.  A score that is not finite is `null`. -/
def Line.write (line : Line) : String :=
  let c := line.candidate
  let score := if Score.isFinite c.score then Decimal.writeFloat c.score else "null"
  Json.object
    [ Json.member "rank" (toString line.rank)
    , Json.member "score" score
    , Json.member "origin" (Json.quoted c.origin.name)
    , Json.member "indices" (Json.array (c.signature.map toString))
    , Json.member "orders" (Json.array (c.orders.map Order.write)) ]

/-- What a finished run says about itself. -/
structure Summary where
  units : Nat
  candidates : Nat
  mode : Mode

def Summary.text (s : Summary) : String :=
  "Decoded " ++ toString s.units ++ " units: " ++ toString s.candidates ++ " candidates ("
    ++ s.mode.title ++ ")"

/-- Why a run that was asked for properly comes to nothing. -/
inductive Failure where
  | unreadable (reason : String)
  | request (fault : Json.Fault)
  | decode (cause : DecodeError)
deriving DecidableEq

/-- The wording of a failure, for a wording of faults in JSON texts. -/
def Failure.message (wording : Json.Fault → String) : Failure → String
  | unreadable reason => "error: " ++ reason
  | request fault => "error: " ++ wording fault
  | decode cause => "error: " ++ cause.message wording

/-- What a run comes to. -/
inductive Outcome where
  | stopped (stop : Stop)
  | failed (failure : Failure)
  | decoded (lines : List Line) (summary : Option Summary)

/-- The exit code of a run: asking for help is no failure, and breaking off
has a code of its own. -/
def Outcome.exitCode : Outcome → Nat
  | stopped .help => 0
  | stopped _ => 1
  | failed (.decode .outOfPaths) => 101
  | failed _ => 1
  | decoded _ _ => 0

/-! ## Layers of settings -/

/-- The settings with one of them replaced, if there is a value for it. -/
def override {σ β : Type} (value : Option β) (set : σ → β → σ) (s : σ) : σ :=
  match value with
  | some v => set s v
  | none => s

/-- Lays the flags over settings. -/
def Arguments.over (a : Arguments) (s : Settings Float) : Settings Float :=
  let s := override a.beamWidth (fun s beamWidth => { s with beamWidth }) s
  let s := override a.samples (fun s numSamples => { s with numSamples }) s
  let s := override a.candidates (fun s numCandidates => { s with numCandidates }) s
  let s := override a.temperature (fun s temperature => { s with temperature }) s
  let s := override a.topK (fun s topK => { s with topK }) s
  let s := override a.seed (fun s seed => { s with seed }) s
  let s := override a.threads (fun s threads => { s with threads }) s
  if a.unconstrained then { s with constrained := false } else s

/-- What a run goes by: the request's size of the map over the settings of
the file, and the flags over both. -/
def effective (a : Arguments) (r : Request) (s : Settings Float) : Settings Float :=
  a.over (override r.numAreas (fun s numAreas => { s with numAreas }) s)

/-! ## Running -/

/-- What a run finds outside: the text of the request and, if a settings
file is named, the text of that, or why they cannot be read; a word to
start from where the settings have no seed; and what comes of starting so
many threads. -/
structure Surroundings where
  request : Except String String
  settings : Except String String
  fresh : UInt64
  threads : Nat → Except String Schedule

/-- The settings of the file that was named, or the defaults. -/
def fileSettings (a : Arguments) (outside : Surroundings) :
    Except DecodeError (Settings Float) :=
  match a.settings with
  | none => .ok Settings.default
  | some path =>
      match outside.settings with
      | .error reason => .error (.argument (.unreadableSettings path reason))
      | .ok text => Settings.ofText text

/-- The candidates that a decoder finds in a mode. -/
def decodeWith (d : Decoder Float) (units : UnitList) :
    Mode → Except DecodeError (List (Candidate Float))
  | .greedy => do .ok [← d.greedy units]
  | .beam => do .ok (← d.beam units).candidates
  | .sample => (d.sample units).1
  | .candidates => (d.candidates units).1

/-- Decodes a request: its units, and what was found for them. -/
def answer (a : Arguments) (r : Request) (outside : Surroundings) :
    Except DecodeError (UnitList × List (Candidate Float)) := do
  let settings ← fileSettings a outside
  let units := (← UnitList.ofAreas r.units).withPhase r.phase
  let decoder ←
    Decoder.create (Scorer.table r.rows) (effective a r settings) outside.fresh outside.threads
  let found ← decodeWith decoder units (a.mode.getD .candidates)
  .ok (units, found)

/-- Carries out a command line that says what to do. -/
def carryOut (a : Arguments) (outside : Surroundings) : Outcome :=
  match outside.request with
  | .error reason => .failed (.unreadable reason)
  | .ok text =>
      match Json.readText Request.reader text with
      | .error fault => .failed (.request fault)
      | .ok r =>
          match answer a r outside with
          | .error cause => .failed (.decode cause)
          | .ok (units, found) =>
              let summary : Summary :=
                { units := units.length
                  candidates := found.length
                  mode := a.mode.getD .candidates }
              .decoded (found.zipIdx.map fun (candidate, rank) => { rank, candidate })
                (if a.quiet then none else some summary)

end CommandLine
end OrderDecoding
