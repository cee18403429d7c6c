/-
# `LineCalc.Token` — the words a line is made of

A token is its kind, its lexeme and the place of its first character.  The lexeme of
a string leaves the quotes out; the marker that ends every scanned text has no lexeme
and is written `EOF`.
-/
import LineCalc.Position
import LineCalc.Decimal

namespace LineCalc

/-- What a token is.  The two words of truth share one kind that says which it is. -/
inductive Token.Kind where
  | leftParen | rightParen | leftBrace | rightBrace
  | plus | minus | star | slash | percent
  | less | lessEqual | greater | greaterEqual | equalEqual | bangEqual
  | andAnd | orOr | bang | equal
  | integer | float | string | bool (b : Bool)
  | identifier | endOfStatement | endOfInput
deriving DecidableEq, Repr, Inhabited

structure Token where
  kind : Token.Kind
  lexeme : String
  position : Position
deriving DecidableEq, Repr, Inhabited

namespace Token

namespace Kind

/-- The name under which listings and log records show a kind. -/
def name : Kind → String
  | leftParen => "LeftParen"
  | rightParen => "RightParen"
  | leftBrace => "LeftBrace"
  | rightBrace => "RightBrace"
  | plus => "Plus"
  | minus => "Minus"
  | star => "Star"
  | slash => "Slash"
  | percent => "Percent"
  | less => "Less"
  | lessEqual => "LessEqual"
  | greater => "Greater"
  | greaterEqual => "GreaterEqual"
  | equalEqual => "EqualEqual"
  | bangEqual => "BangEqual"
  | andAnd => "AndAnd"
  | orOr => "OrOr"
  | bang => "Bang"
  | equal => "Equal"
  | integer => "Integer"
  | float => "Float"
  | string => "String"
  | bool true => "True"
  | bool false => "False"
  | identifier => "Identifier"
  | endOfStatement => "EndOfStatement"
  | endOfInput => "EndOfInput"

/-- The one spelling of an operator, a bracket or the statement mark. -/
def spelling? : Kind → Option String
  | leftParen => some "("
  | rightParen => some ")"
  | leftBrace => some "\x7b"
  | rightBrace => some "\x7d"
  | plus => some "+"
  | minus => some "-"
  | star => some "*"
  | slash => some "/"
  | percent => some "%"
  | less => some "<"
  | lessEqual => some "<="
  | greater => some ">"
  | greaterEqual => some ">="
  | equalEqual => some "=="
  | bangEqual => some "!="
  | andAnd => some "&&"
  | orOr => some "||"
  | bang => some "!"
  | equal => some "="
  | endOfStatement => some ";"
  | integer | float | string | bool _ | identifier | endOfInput => none

end Kind

/-- The marker that ends a text at place `p`. -/
def endAt (p : Position) : Token := ⟨.endOfInput, "", p⟩

def isEnd (t : Token) : Bool := t.kind == .endOfInput

/-- A token as messages name it: the lexeme between quotes, or `EOF`, then the place. -/
def display (t : Token) : String :=
  "\"" ++ (if t.isEnd then "EOF" else t.lexeme) ++ "\" @ line "
    ++ Decimal.ofNat t.position.line.toNat ++ ", column " ++ Decimal.ofNat t.position.column.toNat

end Token

end LineCalc
