/-
# `LineCalc.Session` — running a file, running an input

A file is run only if all of it is text; its errors name their lines, and it fails if
any line does.  An input is run line by line between a greeting and a farewell, up to
its end or to the first line that is no text; its errors name no lines, and it never
fails.  Apart from that the two show the same.
-/
import LineCalc.Session.Report

namespace LineCalc.Session

/-- What a finished session leaves: an exit code and the texts it wrote. -/
structure Transcript where
  exitCode : UInt32
  output : String
  notices : String
deriving DecidableEq, Repr, Inhabited

/-- Why a file could not be read. -/
inductive ReadFailure where
  | missing
  | notText
  | other (reason : String)
deriving DecidableEq, Repr, Inhabited

/-- What is said of bytes that encode no text. -/
def notTextMessage : String := "stream did not contain valid UTF-8"

def ReadFailure.message : ReadFailure → String
  | missing => "No such file or directory (os error 2)"
  | notText => notTextMessage
  | other reason => reason

/-- The text that a file holds. -/
def decode (contents : ByteArray) : Except ReadFailure String :=
  match String.fromUTF8? contents with
  | some text => .ok text
  | none => .error .notText

def fileTranscript (r : Report) : Transcript where
  exitCode := if r.hasFailure then 1 else 0
  output := Text.unlines (r.entries.map Entry.line)
  notices := Text.unlines (r.notices.map Notice.numberedLine)

def unreadableTranscript (name : String) (why : ReadFailure) : Transcript where
  exitCode := 1
  output := ""
  notices := "Failed to read '" ++ name ++ "': " ++ why.message ++ "\n"

/-- Runs every line of a text that is not blank. -/
def runText (o : Options) (clock : Nat → Durations) (text : String) : Transcript :=
  fileTranscript (.ofLines o clock (numbered (Text.lines text)))

/-- Runs the file with the given name, once an attempt to read it gave the bytes `contents`. -/
def runFile (o : Options) (clock : Nat → Durations) (name : String)
    (contents : Except ReadFailure ByteArray) : Transcript :=
  match contents.bind decode with
  | .ok text => runText o clock text
  | .error why => unreadableTranscript name why

/-- The first line of an interactive session. -/
def greeting : String := "Jacaranta lang"

/-- The last line of an interactive session, which says why it ended. -/
def farewell (reason : String) : String := "Bye! (" ++ reason ++ ")"

/-- Why an input ends: it is over, or a line of it is no text. -/
def endReason (lines : List (Option String)) : String :=
  if lines.all Option.isSome then "EOF" else notTextMessage

/-- The lines before the first one that is no text. -/
def readable (lines : List (Option String)) : List String :=
  (lines.takeWhile Option.isSome).filterMap id

/-- An interactive session shows no timings, so no durations are needed. -/
def noClock : Nat → Durations := fun _ _ => ""

/-- The transcript of an interactive session with the given report and end. -/
def inputTranscript (reason : String) (r : Report) : Transcript where
  exitCode := 0
  output := Text.unlines ([greeting] ++ r.entries.map Entry.line ++ [farewell reason])
  notices := Text.unlines (r.notices.map Notice.line)

/-- Runs every line of an input that is not blank.  Lines are taken as they are: a backspace is a
character of its line like any other, and takes away none before it. -/
def runInput (o : Options) (input : ByteArray) : Transcript :=
  let lines := Text.byteLines input
  inputTranscript (endReason lines)
    (.ofLines o.untimed noClock (numbered (readable lines)))

end LineCalc.Session
