/-
# `LineCalc.Log` — what the stages record

Every stage leaves records: the scan one for each token and one for each character it
drops, the other stages one each when they succeed.  How many are shown depends on the
verbosity.
-/
import LineCalc.Token.Trace
import LineCalc.Value

namespace LineCalc

namespace Log

/-- How talkative a record, or a reader of records, is. -/
inductive Level where
  | warn
  | debug
  | trace
deriving DecidableEq, Repr, Inhabited

namespace Level

/-- The levels in order, from terse to talkative. -/
def rank : Level → Nat
  | warn => 0
  | debug => 1
  | trace => 2

def name : Level → String
  | warn => "WARN"
  | debug => "DEBUG"
  | trace => "TRACE"

/-- The most talkative level shown at a verbosity. -/
def ofVerbosity : Nat → Level
  | 0 => warn
  | 1 => debug
  | _ => trace

end Level

/-- Something a stage did. -/
inductive Record where
  | scanned (t : Token)
  | dropped (c : Char) (place : Position)
  | parsed (e : Expr)
  | evaluated (e : Expr) (v : Value)
deriving Repr, Inhabited

namespace Record

def ofEvent : Token.Event → Record
  | .token t => scanned t
  | .stray c place => dropped c place

/-- Single tokens are recorded at the most talkative level. -/
def level : Record → Level
  | scanned _ => .trace
  | dropped _ _ | parsed _ | evaluated _ _ => .debug

def text : Record → String
  | scanned t => "scanned " ++ t.kind.name ++ " " ++ t.display
  | dropped c place =>
      "dropping lone '" ++ String.singleton c ++ "' at line " ++ Decimal.ofNat place.line.toNat
        ++ ", column " ++ Decimal.ofNat place.column.toNat
  | parsed e => "parsed " ++ e.render
  | evaluated e v => "evaluated " ++ e.render ++ " to " ++ v.render

def line (r : Record) : String := "[" ++ r.level.name ++ "] " ++ r.text

def isShown (verbosity : Nat) (r : Record) : Bool :=
  r.level.rank ≤ (Level.ofVerbosity verbosity).rank

end Record

/-- The records shown at a verbosity, in their order. -/
def shown (verbosity : Nat) (records : List Record) : List Record :=
  records.filter (Record.isShown verbosity)

variable {v : Nat}

theorem shown_zero (rs : List Record) : shown 0 rs = [] := by
  refine List.filter_eq_nil_iff.mpr fun r _ => ?_
  cases r <;> exact Bool.false_ne_true

end Log

end LineCalc
