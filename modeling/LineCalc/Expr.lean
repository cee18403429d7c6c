/-
# `LineCalc.Expr` — expressions

An expression is a tree of literals, groupings and operators.  Number literals keep
the text they were written with; they are read when the expression is evaluated.  The
written form of a tree puts each operator before its operands, in parentheses.
-/
import LineCalc.Operator

namespace LineCalc

/-- A value written out in an expression. -/
inductive Literal where
  | integer (lexeme : String)
  | float (lexeme : String)
  | string (text : String)
  | bool (b : Bool)
deriving DecidableEq, Repr, Inhabited

inductive Expr where
  | literal (l : Literal)
  | group (e : Expr)
  | unary (op : UnaryOp) (e : Expr)
  | binary (left : Expr) (op : BinaryOp) (right : Expr)
deriving DecidableEq, Repr, Inhabited

def truthWord (b : Bool) : String := if b then "true" else "false"

/-- A text between quotes, itself unchanged. -/
def quoted (text : String) : String := "\"" ++ text ++ "\""

namespace Literal

def ofToken? (t : Token) : Option Literal :=
  match t.kind with
  | .integer => some (integer t.lexeme)
  | .float => some (float t.lexeme)
  | .string => some (string t.lexeme)
  | .bool b => some (bool b)
  | _ => none

def render : Literal → String
  | integer lexeme | float lexeme => lexeme
  | string text => quoted text
  | bool b => truthWord b

end Literal

namespace Expr

/-- The written form of a tree, as in `(+ 2 (* 3 4))`. -/
def render : Expr → String
  | literal l => l.render
  | group e => "(group " ++ e.render ++ ")"
  | unary op e => "(" ++ op.symbol ++ " " ++ e.render ++ ")"
  | binary left op right =>
      "(" ++ op.symbol ++ " " ++ left.render ++ " " ++ right.render ++ ")"

/-- The height of a tree: a literal has none, and every other node stands one above its
tallest child. -/
def height : Expr → Nat
  | literal _ => 0
  | group e | unary _ e => e.height + 1
  | binary left _ right => max left.height right.height + 1

end Expr

end LineCalc
