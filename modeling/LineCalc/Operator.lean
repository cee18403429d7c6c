/-
# `LineCalc.Operator` — operators

A binary operator relates its operands, computes with them or takes a remainder.
Binary operators stand on four levels; those of a higher level bind tighter, and
those of one level associate to the left.
-/
import LineCalc.Token

namespace LineCalc

/-- The operators that stand before one operand. -/
inductive UnaryOp where
  | negate
  | not
deriving DecidableEq, Repr, Inhabited

/-- The relations two operands can be tested for. -/
inductive Relation where
  | equal | notEqual | greater | greaterEqual | less | lessEqual
deriving DecidableEq, Repr, Inhabited

/-- The four operations on numbers. -/
inductive Arithmetic where
  | add | sub | mul | div
deriving DecidableEq, Repr, Inhabited

/-- The operators that stand between two operands. -/
inductive BinaryOp where
  | relate (r : Relation)
  | compute (a : Arithmetic)
  | rem
deriving DecidableEq, Repr, Inhabited

namespace UnaryOp

def ofKind? : Token.Kind → Option UnaryOp
  | .minus => some negate
  | .bang => some not
  | _ => none

def symbol : UnaryOp → String
  | negate => "-"
  | not => "!"

end UnaryOp

namespace Relation

def symbol : Relation → String
  | equal => "=="
  | notEqual => "!="
  | greater => ">"
  | greaterEqual => ">="
  | less => "<"
  | lessEqual => "<="

end Relation

namespace Arithmetic

def symbol : Arithmetic → String
  | add => "+"
  | sub => "-"
  | mul => "*"
  | div => "/"

end Arithmetic

namespace BinaryOp

def ofKind? : Token.Kind → Option BinaryOp
  | .equalEqual => some (relate .equal)
  | .bangEqual => some (relate .notEqual)
  | .greater => some (relate .greater)
  | .greaterEqual => some (relate .greaterEqual)
  | .less => some (relate .less)
  | .lessEqual => some (relate .lessEqual)
  | .plus => some (compute .add)
  | .minus => some (compute .sub)
  | .star => some (compute .mul)
  | .slash => some (compute .div)
  | .percent => some rem
  | _ => none

def symbol : BinaryOp → String
  | relate r => r.symbol
  | compute a => a.symbol
  | rem => "%"

/-- How tightly the operator binds: equality, comparison, term and factor, from loose to tight. -/
def level : BinaryOp → Nat
  | relate .equal | relate .notEqual => 0
  | relate _ => 1
  | compute .add | compute .sub => 2
  | compute .mul | compute .div | rem => 3

end BinaryOp

/-- An operator of either sort. -/
inductive Operator where
  | unary (op : UnaryOp)
  | binary (op : BinaryOp)
deriving DecidableEq, Repr, Inhabited

def Operator.symbol : Operator → String
  | unary op => op.symbol
  | binary op => op.symbol

end LineCalc
