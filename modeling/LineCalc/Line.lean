/-
# `LineCalc.Line` — one line through all stages

A line is scanned, parsed and evaluated, each stage working on what the one before
gave.  Its account says how far it got and keeps what each stage gave; the result of
the line (`run`) and its log records (`records`) are readings of the account.
-/
import LineCalc.Expr.Eval
import LineCalc.Parser
import LineCalc.Log

namespace LineCalc

/-- Why a line has no value. -/
inductive LineError where
  | scan (e : ScanError)
  | parse (e : ParseError)
  | eval (e : EvalError)
deriving Repr, Inhabited

/-- The text of an error, which begins with the stage it comes from. -/
def LineError.message : LineError → String
  | scan e => "[LEX ERROR] " ++ e.message
  | parse e => "[PARSE ERROR] " ++ e.message
  | eval e => "[RUNTIME ERROR] " ++ e.message

/-- How far a line gets, with what each stage gave. -/
inductive Progress where
  | unscanned (e : ScanError)
  | unparsed (tokens : List Token) (e : ParseError)
  | unevaluated (tokens : List Token) (tree : Expr) (e : EvalError)
  | evaluated (tokens : List Token) (tree : Expr) (v : Value)
deriving Repr, Inhabited

namespace Progress

def ofTree (tokens : List Token) (tree : Expr) : Progress :=
  match tree.eval with
  | .ok v => evaluated tokens tree v
  | .error e => unevaluated tokens tree e

def ofTokens (tokens : List Token) : Progress :=
  match parse tokens with
  | .ok tree => ofTree tokens tree
  | .error e => unparsed tokens e

def ofScan : Except ScanError (List Token) → Progress
  | .ok tokens => ofTokens tokens
  | .error e => unscanned e

/-- The value of a line, or the first error. -/
def result : Progress → Except LineError Value
  | unscanned e => .error (.scan e)
  | unparsed _ e => .error (.parse e)
  | unevaluated _ _ e => .error (.eval e)
  | evaluated _ _ v => .ok v

/-- The records of the stages after the scan. -/
def records : Progress → List Log.Record
  | unscanned _ | unparsed _ _ => []
  | unevaluated _ tree _ => [.parsed tree]
  | evaluated _ tree v => [.parsed tree, .evaluated tree v]

end Progress

/-- What became of a line: what its scan met, and how far the line got. -/
structure Account where
  events : List Token.Event
  progress : Progress
deriving Repr, Inhabited

namespace Account

def ofTrace (t : Token.Trace) : Account := ⟨t.events, .ofScan t.tokens⟩

def ofSource (source : String) : Account := ofTrace (.ofSource source)

def records (a : Account) : List Log.Record :=
  a.events.map Log.Record.ofEvent ++ a.progress.records

end Account

/-- The value of a line, or the first error of a stage. -/
def run (source : String) : Except LineError Value := (Account.ofSource source).progress.result

/-- The records a line leaves, in their order. -/
def records (source : String) : List Log.Record := (Account.ofSource source).records

end LineCalc
