/-
# `LineCalc.Main` — the program

Reads a file or the standard input, runs its lines and writes the transcript.  Only
reading, writing and the clock are here.
-/
import LineCalc.CommandLine

namespace LineCalc.Main

open Session

/-- A time since `start`, in whole microseconds. -/
def since (start : Nat) : IO String := do
  let now ← IO.monoNanosNow
  return Decimal.ofNat ((now - start) / 1000) ++ "µs"

/-- The time each stage takes on a line; a stage that is not reached takes none. -/
def measure (source : String) : IO Durations := do
  let start ← IO.monoNanosNow
  match Token.scan source with
  | .error _ => return fun _ => ""
  | .ok tokens =>
    let scanTime ← since start
    let start ← IO.monoNanosNow
    match parse tokens with
    | .error _ => return fun _ => scanTime
    | .ok tree =>
      let parseTime ← since start
      let start ← IO.monoNanosNow
      match tree.eval with
      | .error _ => return fun stage => if stage = .scan then scanTime else parseTime
      | .ok _ =>
        let evalTime ← since start
        return fun
          | .scan => scanTime
          | .parse => parseTime
          | .eval => evalTime

/-- The times of all lines of a file, by line number. -/
def measureAll (contents : ByteArray) : IO (Nat → Durations) := do
  match decode contents with
  | .error _ => return noClock
  | .ok text =>
    let times ← (Text.lines text).toArray.mapM measure
    return fun number => times[number - 1]?.getD fun _ => ""

def readFile (path : String) : IO (Except ReadFailure ByteArray) := do
  try
    return .ok (← IO.FS.readBinFile path)
  catch
    | .noFileOrDirectory .. => return .error .missing
    | e => return .error (.other (toString e))

/-- All bytes of a stream, put behind those already read. -/
partial def readAll (stream : IO.FS.Stream) (bytes : ByteArray) : IO ByteArray := do
  let more ← stream.read 65536
  if more.isEmpty then return bytes else readAll stream (bytes ++ more)

/-- The transcript of what the program is asked to do. -/
def perform : Command → IO Transcript
  | .file path o => do
      let contents ← readFile path
      let clock ←
        match contents with
        | .ok bytes => if o.timings then measureAll bytes else pure noClock
        | .error _ => pure noClock
      return runFile o clock path contents
  | .input o => return runInput o (← readAll (← IO.getStdin) .empty)

end LineCalc.Main

open LineCalc in
def main (arguments : List String) : IO UInt32 := do
  match CommandLine.command? arguments with
  | none =>
    (← IO.getStderr).putStr CommandLine.usage
    return 2
  | some command =>
    let transcript ← Main.perform command
    (← IO.getStdout).putStr transcript.output
    (← IO.getStderr).putStr transcript.notices
    return transcript.exitCode
