/-
# `Main` — the program

Reads the request from a file or from standard input, decodes it, and
prints one JSON line per candidate.  What is said about the run goes to
standard error.  Everything that decides is in `CommandLine`.
-/
import OrderDecoding.CommandLine.Run

namespace OrderDecoding
namespace CommandLine

/-- The reason why a file could not be read. -/
def readingFault : IO.Error → String
  | .noFileOrDirectory _ _ _ => "No such file or directory (os error 2)"
  | .permissionDenied _ _ _ => "Permission denied (os error 13)"
  | .inappropriateType _ _ "not a directory" => "Not a directory (os error 20)"
  | .inappropriateType _ _ _ => "Is a directory (os error 21)"
  | .invalidArgument _ _ "name too long" => "File name too long (os error 36)"
  | e => toString e

/-- The text of some bytes. -/
def decodeText (bytes : ByteArray) : Except String String :=
  match String.fromUTF8? bytes with
  | some text => .ok text
  | none => .error "stream did not contain valid UTF-8"

def readFile (path : String) : IO (Except String String) := do
  try
    return decodeText (← IO.FS.readBinFile path)
  catch e => return .error (readingFault e)

def readInput : IO (Except String String) := do
  try
    return decodeText (← (← IO.getStdin).readBinToEnd)
  catch e => return .error (readingFault e)

/-- A word that no seed decides. -/
def freshWord : IO UInt64 := do
  let bytes ← IO.getRandomBytes 8
  return bytes.foldl (fun word byte => word * 256 + byte.toUInt64) 0

/-- Starts threads.  They take the pieces from the front, which is one of the
schedules that threads may come to. -/
def startThreads (_ : Nat) : Except String Schedule := .ok fun _ => []

/-- A duration in milliseconds, with one place. -/
def milliseconds (nanoseconds : Nat) : String :=
  let tenths := (nanoseconds + 50000) / 100000
  toString (tenths / 10) ++ "." ++ toString (tenths % 10) ++ "ms"

def run (arguments : List String) : IO Outcome := do
  match Arguments.read arguments with
  | .error stop => return .stopped stop
  | .ok a =>
      let request ← match a.input with
        | some path => readFile path
        | none => readInput
      let settings ← match a.settings with
        | some path => readFile path
        | none => pure (.error "")
      return carryOut a { request, settings, fresh := ← freshWord, threads := startThreads }

/-- Prints what a run came to. -/
def report (outcome : Outcome) (nanoseconds : Nat) : IO Unit := do
  let out ← IO.getStdout
  match outcome with
  | .stopped stop => stop.messages.forM fun line => IO.eprintln line
  | .failed failure => IO.eprintln (failure.message Json.Fault.category)
  | .decoded lines summary => do
      lines.forM fun line => out.putStrLn line.write
      out.flush
      match summary with
      | some s => IO.eprintln (s.text ++ " in " ++ milliseconds nanoseconds)
      | none => pure ()

end CommandLine
end OrderDecoding

open OrderDecoding.CommandLine in
def main (arguments : List String) : IO UInt32 := do
  let before ← IO.monoNanosNow
  let outcome ← run arguments
  report outcome ((← IO.monoNanosNow) - before)
  return UInt32.ofNat outcome.exitCode
