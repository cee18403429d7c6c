/-
# `LineCalc.Session.Report` — what a session shows of its lines

A session runs one line after another.  On its output it shows the value of each line
and, where asked, the tokens, the tree and the time of each stage; among its notices
are the log records that the verbosity admits, and the errors.  Both are lists of
entries of their own type and become text at the end only.  Lines of white space are
passed over but counted.
-/
import LineCalc.Line
import LineCalc.Text.Lines

namespace LineCalc.Session

/-- What a session shows besides values and errors. -/
structure Options where
  tokens : Bool
  tree : Bool
  timings : Bool
  verbosity : Nat
deriving DecidableEq, Repr, Inhabited

def Options.untimed (o : Options) : Options := ⟨o.tokens, o.tree, false, o.verbosity⟩

/-- The stages whose time is shown. -/
inductive Stage where
  | scan
  | parse
  | eval
deriving DecidableEq, Repr, Inhabited

def Stage.name : Stage → String
  | scan => "Scanning"
  | parse => "Parsing"
  | eval => "Evaluating"

/-- An entry of a session's output. -/
inductive Entry where
  | timing (stage : Stage) (duration : String)
  | token (t : Token)
  | tree (e : Expr)
  | value (v : Value)
deriving Repr, Inhabited

def Entry.line : Entry → String
  | timing stage duration => "[" ++ stage.name ++ " took: " ++ duration ++ "]"
  | token t => t.kind.name ++ " " ++ t.display
  | tree e => e.render
  | value v => v.render

/-- A notice of a session: a log record, or the error of the line with a number. -/
inductive Notice where
  | record (r : Log.Record)
  | failure (number : Nat) (e : LineError)
deriving Repr, Inhabited

def Notice.isFailure : Notice → Bool
  | record _ => false
  | failure _ _ => true

/-- The text of a notice that leaves line numbers out. -/
def Notice.line : Notice → String
  | record r => r.line
  | failure _ e => e.message

/-- The text of a notice that names the line of an error. -/
def Notice.numberedLine : Notice → String
  | record r => r.line
  | failure number e => "line " ++ Decimal.ofNat number ++ ": " ++ e.message

/-- How long each stage of a line took, as text. -/
abbrev Durations := Stage → String

namespace Options

/-- The timing of a stage, if timings are asked for. -/
def timing (o : Options) (d : Durations) (stage : Stage) : List Entry :=
  if o.timings then [.timing stage (d stage)] else []

def scanned (o : Options) (d : Durations) (tokens : List Token) : List Entry :=
  o.timing d .scan ++ if o.tokens then tokens.map .token else []

def parsed (o : Options) (d : Durations) (tree : Expr) : List Entry :=
  o.timing d .parse ++ if o.tree then [.tree tree] else []

def evaluated (o : Options) (d : Durations) (v : Value) : List Entry :=
  o.timing d .eval ++ [.value v]

/-- The output of a line that got so far. -/
def entries (o : Options) (d : Durations) : Progress → List Entry
  | .unscanned _ => []
  | .unparsed tokens _ => o.scanned d tokens
  | .unevaluated tokens tree _ => o.scanned d tokens ++ o.parsed d tree
  | .evaluated tokens tree v => o.scanned d tokens ++ o.parsed d tree ++ o.evaluated d v

/-- The notices of the line with the given number and account. -/
def notices (o : Options) (number : Nat) (a : Account) : List Notice :=
  (Log.shown o.verbosity a.records).map .record ++
    match a.progress.result with
    | .ok _ => []
    | .error e => [.failure number e]

end Options

/-- What a session shows: its output and its notices, each in order. -/
structure Report where
  entries : List Entry
  notices : List Notice
deriving Repr, Inhabited

namespace Report

def hasFailure (r : Report) : Bool := r.notices.any Notice.isFailure

def ofLine (o : Options) (d : Durations) (number : Nat) (source : String) : Report :=
  let account := Account.ofSource source
  ⟨o.entries d account.progress, o.notices number account⟩

def join (reports : List Report) : Report :=
  ⟨reports.flatMap Report.entries, reports.flatMap Report.notices⟩

/-- The report of numbered lines; `clock` gives the durations of a line by its number. -/
def ofLines (o : Options) (clock : Nat → Durations) (lines : List (Nat × String)) : Report :=
  join (lines.map fun (number, source) => ofLine o (clock number) number source)

end Report

/-- The lines that hold more than white space, with their numbers from one on. -/
def numbered (lines : List String) : List (Nat × String) :=
  ((lines.zipIdx 1).filter fun (line, _) => !Text.isBlankText line.toList).map fun (line, number) =>
    (number, line)

end LineCalc.Session
