/-
# `LineCalc.Parser` — expressions from tokens

A parser is what is left of a token list, with the token that is blamed once nothing
is left.  It gives one expression at a time (`expression`), or takes the whole list as
one expression (`parse`): after the expression there may be one statement mark, and
then the end marker must come.
-/
import LineCalc.Parser.State

namespace LineCalc

/-- The tokens still to be read, and the token that stands for their end. -/
structure Parser where
  rest : List Token
  finish : Token
deriving DecidableEq, Repr, Inhabited

namespace Parser

/-- The tallest tree that is built, and the most groupings and unary operators open at once. -/
def maxDepth : Nat := 256

/-- The token that stands for the end of a list: its last token if that is an end marker, and
otherwise a marker at the start of the text. -/
def finishOf (tokens : List Token) : Token :=
  match tokens.getLast? with
  | some t => if t.isEnd then t else Token.endAt .start
  | none => Token.endAt .start

def ofTokens (tokens : List Token) : Parser := ⟨tokens, finishOf tokens⟩

/-- Reads one expression under the given limit: its tree with the tree's height, and the parser
after it. -/
def subtree (limit : Option Nat) (p : Parser) : Except ParseError (Subtree × Parser) := do
  let (tree, rest) ← State.run limit p.finish .initial p.rest
  return (tree, ⟨rest, p.finish⟩)

/-- Reads one expression: its tree, and the parser after it. -/
def expression (p : Parser) : Except ParseError (Expr × Parser) := do
  let (tree, q) ← p.subtree (some maxDepth)
  return (tree.expr, q)

/-- A token list without the statement mark it begins with, if it does. -/
def dropStatementMark : List Token → List Token
  | [] => []
  | t :: ts => if t.kind = .endOfStatement then ts else t :: ts

/-- Reads, under the given limit, all tokens up to the end marker as one expression. -/
def parseWithin (limit : Option Nat) (p : Parser) : Except ParseError Expr := do
  let (tree, q) ← p.subtree limit
  match dropStatementMark q.rest with
  | [] => .error (.unexpectedToken q.finish)
  | t :: _ => if t.isEnd then return tree.expr else .error (.unexpectedToken t)

/-- Reads all tokens up to the end marker as one expression. -/
def parse (p : Parser) : Except ParseError Expr := p.parseWithin (some maxDepth)

end Parser

/-- The expression that a token list spells. -/
def parse (tokens : List Token) : Except ParseError Expr := (Parser.ofTokens tokens).parse

end LineCalc
