/-
# `LineCalc.CommandLine` — what the command line asks for

The first argument says whether a file or the standard input is run, and flags say
what is shown besides values and errors.
-/
import LineCalc.Session

namespace LineCalc

/-- What the program is asked to do. -/
inductive Command where
  | file (path : String) (o : Session.Options)
  | input (o : Session.Options)
deriving DecidableEq, Repr, Inhabited

namespace CommandLine

/-- The flags and the other arguments of a command line. -/
structure Arguments where
  options : Session.Options
  paths : List String
deriving DecidableEq, Repr, Inhabited

def Arguments.empty : Arguments := ⟨⟨false, false, false, 0⟩, []⟩

/-- How often a flag such as `-vv` asks for more records. -/
def verbosityFlag? (argument : String) : Option Nat :=
  match argument.toList with
  | '-' :: 'v' :: more => if more.all (· == 'v') then some (more.length + 1) else none
  | _ => if argument = "--verbose" then some 1 else none

/-- Takes one more argument, if it is no unknown flag. -/
def Arguments.add? (a : Arguments) (argument : String) : Option Arguments :=
  let ⟨tokens, tree, timings, verbosity⟩ := a.options
  match verbosityFlag? argument with
  | some more => some ⟨⟨tokens, tree, timings, verbosity + more⟩, a.paths⟩
  | none =>
    match argument with
    | "--tokens" => some ⟨⟨true, tree, timings, verbosity⟩, a.paths⟩
    | "--tree" => some ⟨⟨tokens, true, timings, verbosity⟩, a.paths⟩
    | "--timings" => some ⟨⟨tokens, tree, true, verbosity⟩, a.paths⟩
    | _ =>
      if argument.toList.head? = some '-' then none
      else some ⟨a.options, a.paths ++ [argument]⟩

/-- What a command line asks for, if it is well formed. -/
def command? (arguments : List String) : Option Command := do
  match arguments with
  | [] => failure
  | mode :: rest =>
    let a ← rest.foldlM Arguments.add? .empty
    match mode, a.paths with
    | "file", [path] => return .file path a.options
    | "repl", [] => if a.options.timings then failure else return .input a.options
    | _, _ => failure

/-- What is said of a command line that is not well formed. -/
def usage : String :=
  "usage: linecalc file PATH [--tokens] [--tree] [--timings] [-v...]\n"
    ++ "       linecalc repl [--tokens] [--tree] [-v...]\n"

end CommandLine

end LineCalc
