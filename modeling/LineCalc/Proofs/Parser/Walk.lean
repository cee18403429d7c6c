/-
# `LineCalc.Proofs.Parser.Walk` — the grammar, rule by rule

The grammar of expressions as functions that call each other: a rule for each level of binary
operators, one for unary operators, and one for what is no operator.  They share a cursor
that moves over the tokens and two counters, the depth, which is raised before a nested
operand and lowered after it, and the height of the tree read last.

Which tokens a rule takes and what it makes of them are decided in different places, and so
are the raising and the lowering of the depth.  Where the second place relies on the first, a
rule that is let down ends in a breach.  A note is left of every cursor that is passed.

A rule takes at least one token before it is done, which its result says (`Cursor.Short`);
that is why the rules come to an end.
-/
import LineCalc.Parser
import LineCalc.Proofs.Walk

namespace LineCalc.Parser

/-! ## Cursors -/

/-- The tokens still to be read, the token that stands for their end, how many groupings and unary
operators are being read, and the height of the tree that was read last. -/
structure Cursor where
  rest : List Token
  finish : Token
  depth : Nat
  height : Nat
deriving DecidableEq, Repr

/-- What no rule is prepared for. -/
inductive Breach where
  /-- A token was taken for a unary operator and is none. -/
  | notUnary (k : Token.Kind)
  /-- A token was taken for a binary operator and is none. -/
  | notBinary (k : Token.Kind)
  /-- A token was taken for a literal or an opening bracket and is neither. -/
  | notPrimary (k : Token.Kind)
  /-- The depth is lowered while nothing is open. -/
  | depthBelowZero
deriving DecidableEq, Repr

/-- A walk over tokens. -/
abbrev Step (α : Type) := Walk Cursor (Stop ParseError Breach) α

namespace Cursor

def ofTokens (ts : List Token) : Cursor := ⟨ts, finishOf ts, 0, 0⟩

def current (c : Cursor) : Token := c.rest.headD c.finish

abbrev Short (n : Nat) := { c : Cursor // c.rest.length < n }

/-- Takes the token at the cursor, if its kind is wanted. -/
def take? (wanted : Token.Kind → Bool) : (c : Cursor) → Option (Token × Short c.rest.length)
  | ⟨[], _, _, _⟩ => none
  | ⟨t :: ts, finish, depth, height⟩ =>
      if wanted t.kind then some (t, ⟨⟨ts, finish, depth, height⟩, Nat.lt_succ_self _⟩) else none

namespace Short

variable {n : Nat}

def trans (c : Short n) (d : Short c.1.rest.length) : Short n := ⟨d.1, Nat.lt_trans d.2 c.2⟩

/-- Moves to a cursor and leaves a note of it. -/
def go (c : Short n) : Step (Short n) := do
  Walk.note c.1
  return c

/-- Enters a grouping or the operand of a unary operator, which `t` opens. -/
def descend (t : Token) (c : Short n) : Step (Short n) :=
  if maxDepth ≤ c.1.depth then Walk.stop (.error (.tooDeep t))
  else go ⟨{ c.1 with depth := c.1.depth + 1 }, c.2⟩

/-- Leaves a grouping or the operand of a unary operator. -/
def ascend (c : Short n) : Step (Short n) :=
  if c.1.depth = 0 then Walk.stop (.breach .depthBelowZero)
  else go ⟨{ c.1 with depth := c.1.depth - 1 }, c.2⟩

/-- Gives the tree `e`, which `t` makes of the tree read last and of one of height `other`. -/
def fold (t : Token) (e : Expr) (other : Nat) (c : Short n) : Step (Expr × Short n) :=
  let height := max c.1.height other + 1
  if maxDepth < height then Walk.stop (.error (.tooDeep t))
  else do return (e, ← go ⟨{ c.1 with height := height }, c.2⟩)

/-- Takes the bracket that closes a grouping, which `t` opened before the tree `e`. -/
def close (t : Token) (e : Expr) (c : Short n) : Step (Expr × Short n) :=
  match c.1.take? (· == .rightParen) with
  | some (_, d) => do
      let d ← (c.trans d).go
      d.fold t (.group e) 0
  | none => Walk.stop (.error (.mismatchedBracket c.1.current))

end Short

end Cursor

/-! ## Rules -/

/-- The levels of binary operators, from loose to tight. -/
inductive Level where
  | equality | comparison | term | factor
deriving DecidableEq, Repr

/-- The rules of the grammar. -/
inductive Rule where
  /-- Operands joined by operators of one level. -/
  | chain (level : Level)
  /-- A unary operator before its operand, or what has none. -/
  | unary
  /-- A literal or a grouping. -/
  | primary
deriving DecidableEq, Repr

namespace Level

def operand : Level → Rule
  | equality => .chain .comparison
  | comparison => .chain .term
  | term => .chain .factor
  | factor => .unary

/-- The kinds of token that join operands on a level. -/
def joins : Level → Token.Kind → Bool
  | equality, .bangEqual | equality, .equalEqual => true
  | comparison, .greater | comparison, .greaterEqual => true
  | comparison, .less | comparison, .lessEqual => true
  | term, .minus | term, .plus => true
  | factor, .slash | factor, .star | factor, .percent => true
  | _, _ => false

def above : Level → Nat
  | equality => 3
  | comparison => 2
  | term => 1
  | factor => 0

end Level

/-- The kinds of token that stand before an operand. -/
def opensUnary : Token.Kind → Bool
  | .bang | .minus => true
  | _ => false

/-- The kinds of token that a literal or a grouping begins with. -/
def opensPrimary : Token.Kind → Bool
  | .integer | .float | .string | .bool _ | .leftParen => true
  | _ => false

def unaryOp (t : Token) : Step UnaryOp :=
  match UnaryOp.ofKind? t.kind with
  | some op => pure op
  | none => Walk.stop (.breach (.notUnary t.kind))

def binaryOp (t : Token) : Step BinaryOp :=
  match BinaryOp.ofKind? t.kind with
  | some op => pure op
  | none => Walk.stop (.breach (.notBinary t.kind))

/-- How many rules a rule may call one after another before a token is taken. -/
def Rule.rank : Rule → Nat
  | chain level => level.above + 2
  | unary => 1
  | primary => 0

theorem Level.rank_operand_lt (level : Level) : level.operand.rank < (Rule.chain level).rank := by
  cases level <;> decide

open Cursor

mutual

/-- Reads by a rule: the tree, and the cursor behind it. -/
def Rule.read (r : Rule) (c : Cursor) : Step (Expr × Short c.rest.length) :=
  match r with
  | .chain level => do
      let (left, d) ← level.operand.read c
      level.readMore left d
  | .unary =>
      match c.take? opensUnary with
      | some (t, d) => do
          let d ← d.go
          let op ← unaryOp t
          let d ← d.descend t
          let (e, d') ← Rule.unary.read d.1
          let d ← (d.trans d').ascend
          d.fold t (.unary op e) 0
      | none => Rule.primary.read c
  | .primary =>
      match c.take? opensPrimary with
      | some (t, d) => do
          let d ← d.go
          match Literal.ofToken? t with
          | some l =>
              let d ← Short.go ⟨{ d.1 with height := 0 }, d.2⟩
              return (.literal l, d)
          | none =>
            if t.kind = .leftParen then
              let d ← d.descend t
              let (e, d') ← (Rule.chain .equality).read d.1
              let d ← (d.trans d').ascend
              d.close t e
            else Walk.stop (.breach (.notPrimary t.kind))
      | none => Walk.stop (.error (.unexpectedToken c.current))
termination_by (c.rest.length, r.rank)
decreasing_by
  · exact .right _ level.rank_operand_lt
  · exact .left _ _ d.2
  · exact .left _ _ d.2
  · exact .right _ (by decide)
  · exact .left _ _ d.2

/-- Reads on after an operand, as long as operators of the level join others to it. -/
def Level.readMore (level : Level) {n : Nat} (left : Expr) (c : Short n) :
    Step (Expr × Short n) :=
  match c.1.take? level.joins with
  | some (t, d) => do
      let d ← d.go
      let op ← binaryOp t
      let (right, d') ← level.operand.read d.1
      let (e, d) ← (d.trans d').fold t (.binary left op right) c.1.height
      level.readMore e (c.trans d)
  | none => return (left, c)
termination_by (c.1.rest.length, 0)
decreasing_by
  · exact .left _ _ d.2
  · exact .left _ _ d.2

end

end LineCalc.Parser
