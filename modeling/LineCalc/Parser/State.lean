/-
# `LineCalc.Parser.State` — an expression being read

Reading goes from left to right, one token at a time.  A state is the stack of what
is still open — groupings, unary operators, and binary operators that wait for their
right operand — together with the operand just finished, if there is one.  A step
(`State.advance`) takes one more token; where no token can continue the expression it
is concluded (`State.conclude`).

A limit bounds both the number of groupings and unary operators open at once and the
height of every finished subtree.  The limit is a parameter, and `none` is no limit.
-/
import LineCalc.Expr

namespace LineCalc

/-- Why a token list is not an expression. -/
inductive ParseError where
  /-- A grouping is open and the token does not close it. -/
  | mismatchedBracket (t : Token)
  /-- The token cannot stand where it does. -/
  | unexpectedToken (t : Token)
  /-- The token opens or joins an expression that exceeds the limit. -/
  | tooDeep (t : Token)
deriving DecidableEq, Repr, Inhabited

def ParseError.message : ParseError → String
  | mismatchedBracket t => "Expected closing bracket instead of " ++ t.display ++ "."
  | unexpectedToken t => "Unexpected token " ++ t.display ++ "."
  | tooDeep t => "Expression nested too deeply at " ++ t.display ++ "."

namespace Parser

/-- Whether the limit, if there is one, admits `n`. -/
def within (limit : Option Nat) (n : Nat) : Bool := limit.all fun bound => decide (n ≤ bound)

/-- A finished subtree together with its height. -/
structure Subtree where
  expr : Expr
  height : Nat
deriving DecidableEq, Repr, Inhabited

namespace Subtree

def leaf (l : Literal) : Subtree := ⟨.literal l, 0⟩

/-- The node `e`, made by the token `t`, over children of height at most `below`. -/
def node (limit : Option Nat) (t : Token) (e : Expr) (below : Nat) : Except ParseError Subtree :=
  if within limit (below + 1) then .ok ⟨e, below + 1⟩ else .error (.tooDeep t)

end Subtree

/-- Something open that waits for the operand on its right, and the token that opened it. -/
inductive Frame where
  | group (t : Token)
  | unary (op : UnaryOp) (t : Token)
  | binary (left : Subtree) (op : BinaryOp) (t : Token)
deriving DecidableEq, Repr, Inhabited

/-- The node that a frame and its right operand make. -/
def Frame.close (limit : Option Nat) (right : Subtree) : Frame → Except ParseError Subtree
  | group t => Subtree.node limit t (.group right.expr) right.height
  | unary op t => Subtree.node limit t (.unary op right.expr) right.height
  | binary left op t =>
      Subtree.node limit t (.binary left.expr op right.expr) (max left.height right.height)

/-- What is open, innermost first, and how many of it are groupings and unary operators. -/
structure Stack where
  frames : List Frame
  nesting : Nat
deriving DecidableEq, Repr, Inhabited

namespace Stack

def empty : Stack := ⟨[], 0⟩

/-- Opens a grouping or a unary operator. -/
def descend (limit : Option Nat) (s : Stack) (t : Token) (f : Frame) : Except ParseError Stack :=
  if within limit (s.nesting + 1) then .ok ⟨f :: s.frames, s.nesting + 1⟩
  else .error (.tooDeep t)

/-- Closes, with the operand `right`, the unary operators and the binary operators of level
`level` or tighter that stand innermost. -/
def foldFrames (limit : Option Nat) (level : Nat) :
    List Frame → Nat → Subtree → Except ParseError (Stack × Subtree)
  | .unary op t :: fs, n, right => do
      foldFrames limit level fs (n - 1) (← (Frame.unary op t).close limit right)
  | .binary left op t :: fs, n, right => do
      if level ≤ op.level then
        foldFrames limit level fs n (← (Frame.binary left op t).close limit right)
      else .ok (⟨.binary left op t :: fs, n⟩, right)
  | fs, n, right => .ok (⟨fs, n⟩, right)

/-- What is open, and the operand, once everything as tight as `level` is closed. -/
def fold (limit : Option Nat) (level : Nat) (s : Stack) (right : Subtree) :
    Except ParseError (Stack × Subtree) :=
  foldFrames limit level s.frames s.nesting right

end Stack

/-- An expression being read: an operand is wanted, or one was just finished. -/
inductive State where
  | wanting (s : Stack)
  | holding (s : Stack) (right : Subtree)
deriving DecidableEq, Repr, Inhabited

namespace State

def initial : State := wanting .empty

/-- Takes the token `t` where an operand is wanted. -/
def begin (limit : Option Nat) (s : Stack) (t : Token) : Except ParseError (Option State) :=
  match Literal.ofToken? t with
  | some l => .ok (some (holding s (.leaf l)))
  | none =>
    match UnaryOp.ofKind? t.kind with
    | some op => do return some (wanting (← s.descend limit t (.unary op t)))
    | none =>
      if t.kind = .leftParen then do return some (wanting (← s.descend limit t (.group t)))
      else .ok none

/-- Takes the bracket that closes the innermost grouping, if there is one. -/
def closeGroup (limit : Option Nat) (s : Stack) (right : Subtree) :
    Except ParseError (Option State) := do
  let (s, right) ← s.fold limit 0 right
  match s.frames with
  | .group t :: fs => return some (holding ⟨fs, s.nesting - 1⟩ (← (Frame.group t).close limit right))
  | _ => return none

/-- Takes the token `t` after a finished operand. -/
def extend (limit : Option Nat) (s : Stack) (right : Subtree) (t : Token) :
    Except ParseError (Option State) :=
  match BinaryOp.ofKind? t.kind with
  | some op => do
      let (s, left) ← s.fold limit op.level right
      return some (wanting ⟨.binary left op t :: s.frames, s.nesting⟩)
  | none => if t.kind = .rightParen then closeGroup limit s right else .ok none

/-- Takes the token `t`, or finds that the expression cannot go on with it (`none`). -/
def advance (limit : Option Nat) (t : Token) : State → Except ParseError (Option State)
  | wanting s => begin limit s t
  | holding s right => extend limit s right t

/-- The whole expression, where it cannot go on with the token `t`. -/
def conclude (limit : Option Nat) (t : Token) : State → Except ParseError Subtree
  | wanting _ => .error (.unexpectedToken t)
  | holding s right => do
      let (s, right) ← s.fold limit 0 right
      match s.frames with
      | [] => return right
      | _ :: _ => .error (.mismatchedBracket t)

/-- Reads on as far as the expression goes: the expression and the tokens after it.  The token
`finish` stands for the end of the list. -/
def run (limit : Option Nat) (finish : Token) :
    State → List Token → Except ParseError (Subtree × List Token)
  | s, [] => do return (← s.conclude limit finish, [])
  | s, t :: ts => do
      match ← s.advance limit t with
      | some s' => run limit finish s' ts
      | none => return (← s.conclude limit t, t :: ts)

end State

end Parser

end LineCalc
