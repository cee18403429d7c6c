/-
# `LineCalc.Proofs.Grammar` — the language of expressions

What an expression is, said of trees and token lists alone.  A token counts by its kind
and, for a number or a string, by its lexeme: that is its terminal.  A tree yields the
terminals of its nodes from left to right, and it is conformant if every operand stands
on a level that its operator admits.  A sentence is the yield of a conformant tree, at
most one statement mark and the end marker.

Nothing here is bounded, and nothing here reads: the tree of a list is found by the
parser, and the statements about it say that it finds the one described here.
-/
import LineCalc.Parser

namespace LineCalc

/-! ## Terminals -/

/-- The kinds of token whose lexeme is part of an expression. -/
def Token.Kind.keepsLexeme : Token.Kind → Bool
  | .integer | .float | .string => true
  | _ => false

/-- A terminal of the grammar: a kind of token, with the lexeme of a number or a string. -/
structure Terminal where
  kind : Token.Kind
  lexeme : Option String
deriving DecidableEq, Repr

/-- The terminal of a kind whose lexeme does not count. -/
def Terminal.sign (k : Token.Kind) : Terminal := ⟨k, none⟩

/-- What counts of a token. -/
def Token.terminal (t : Token) : Terminal :=
  ⟨t.kind, if t.kind.keepsLexeme then some t.lexeme else none⟩

theorem Token.terminal_eq_sign_iff {t : Token} {k : Token.Kind} (hk : k.keepsLexeme = false) :
    t.terminal = .sign k ↔ t.kind = k := by
  constructor
  · intro h
    exact congrArg Terminal.kind h
  · rintro rfl
    simp [terminal, Terminal.sign, hk]

theorem Token.of_terminal_eq {t : Token} {k : Token.Kind} {lexeme : String}
    (h : t.terminal = ⟨k, some lexeme⟩) : t.kind = k ∧ t.lexeme = lexeme := by
  refine ⟨congrArg Terminal.kind h, ?_⟩
  have hlexeme : (if t.kind.keepsLexeme then some t.lexeme else none) = some lexeme :=
    congrArg Terminal.lexeme h
  split at hlexeme
  next => exact Option.some.inj hlexeme
  next => exact nomatch hlexeme

def Literal.terminal : Literal → Terminal
  | integer lexeme => ⟨.integer, some lexeme⟩
  | float lexeme => ⟨.float, some lexeme⟩
  | string text => ⟨.string, some text⟩
  | bool b => .sign (.bool b)

/-- A token stands for a literal exactly when it counts as that literal is written. -/
theorem Literal.ofToken?_eq_some_iff {t : Token} {l : Literal} :
    Literal.ofToken? t = some l ↔ t.terminal = l.terminal := by
  obtain ⟨kind, lexeme, position⟩ := t
  cases kind <;> cases l <;>
    simp [ofToken?, Token.terminal, Token.Kind.keepsLexeme, Literal.terminal, Terminal.sign]

def UnaryOp.kind : UnaryOp → Token.Kind
  | negate => .minus
  | not => .bang

theorem UnaryOp.ofKind?_eq_some_iff {k : Token.Kind} {op : UnaryOp} :
    UnaryOp.ofKind? k = some op ↔ k = op.kind := by
  constructor
  · intro h
    cases k <;> cases h <;> rfl
  · rintro rfl
    cases op <;> rfl

def BinaryOp.kind : BinaryOp → Token.Kind
  | relate .equal => .equalEqual
  | relate .notEqual => .bangEqual
  | relate .greater => .greater
  | relate .greaterEqual => .greaterEqual
  | relate .less => .less
  | relate .lessEqual => .lessEqual
  | compute .add => .plus
  | compute .sub => .minus
  | compute .mul => .star
  | compute .div => .slash
  | rem => .percent

theorem BinaryOp.ofKind?_eq_some_iff {k : Token.Kind} {op : BinaryOp} :
    BinaryOp.ofKind? k = some op ↔ k = op.kind := by
  constructor
  · intro h
    cases k <;> cases h <;> rfl
  · rintro rfl
    cases op with
    | relate r => cases r <;> rfl
    | compute a => cases a <;> rfl
    | rem => rfl

theorem UnaryOp.kind_ne {k : Token.Kind} (op : UnaryOp) (h : ofKind? k = none) : op.kind ≠ k := by
  rintro rfl
  rw [ofKind?_eq_some_iff.mpr rfl] at h
  cases h

theorem BinaryOp.kind_ne {k : Token.Kind} (op : BinaryOp) (h : ofKind? k = none) :
    op.kind ≠ k := by
  rintro rfl
  rw [ofKind?_eq_some_iff.mpr rfl] at h
  cases h

theorem UnaryOp.kind_keepsLexeme (op : UnaryOp) : op.kind.keepsLexeme = false := by
  cases op <;> rfl

theorem BinaryOp.kind_keepsLexeme (op : BinaryOp) : op.kind.keepsLexeme = false := by
  cases op with
  | relate r => cases r <;> rfl
  | compute a => cases a <;> rfl
  | rem => rfl

/-! ## Trees -/

/-- The level of what is no binary node: it binds tighter than every binary operator. -/
def operandLevel : Nat := 4

theorem BinaryOp.level_lt (op : BinaryOp) : op.level < operandLevel := by
  cases op with
  | relate r => cases r <;> decide
  | compute a => cases a <;> decide
  | rem => decide

namespace Expr

/-- The level of a tree: that of its operator, if it is a binary node. -/
def level : Expr → Nat
  | binary _ op _ => op.level
  | literal _ | group _ | unary _ _ => operandLevel

/-- Every operand stands on a level that its operator admits: the left one of a binary node
binds at least as tight as the node, the right one tighter, and the operand of a unary
operator is no binary node.  A grouping admits every tree. -/
def Conformant : Expr → Prop
  | literal _ => True
  | group e => e.Conformant
  | unary _ e => e.Conformant ∧ operandLevel ≤ e.level
  | binary left op right =>
      left.Conformant ∧ right.Conformant ∧ op.level ≤ left.level ∧ op.level < right.level

/-- The terminals of a tree from left to right. -/
def yield : Expr → List Terminal
  | literal l => [l.terminal]
  | group e => .sign .leftParen :: (e.yield ++ [.sign .rightParen])
  | unary op e => .sign op.kind :: e.yield
  | binary left op right => left.yield ++ .sign op.kind :: right.yield

/-- An expression in `k` groupings. -/
def nest (e : Expr) : Nat → Expr
  | 0 => e
  | k + 1 => group (e.nest k)

theorem height_nest (e : Expr) (k : Nat) : (e.nest k).height = e.height + k := by
  induction k with
  | zero => rfl
  | succ k ih =>
      show (e.nest k).height + 1 = _
      rw [ih, Nat.add_assoc]

theorem conformant_nest {e : Expr} (h : e.Conformant) (k : Nat) : (e.nest k).Conformant := by
  induction k with
  | zero => exact h
  | succ k ih => exact ih

theorem yield_nest (e : Expr) (k : Nat) :
    (e.nest k).yield = List.replicate k (Terminal.sign .leftParen) ++ e.yield
      ++ List.replicate k (Terminal.sign .rightParen) := by
  induction k with
  | zero => rw [List.replicate_zero, List.nil_append, List.replicate_zero, List.append_nil]; rfl
  | succ k ih =>
      show Terminal.sign .leftParen :: ((e.nest k).yield ++ [Terminal.sign .rightParen]) = _
      rw [ih, List.replicate_succ, List.replicate_succ', List.cons_append, List.cons_append,
        List.append_assoc _ _ [_]]

end Expr

/-! ## Token lists -/

/-- Whether a token makes a node over operands: it opens a grouping or stands for an operator. -/
def Token.MakesNode (t : Token) : Prop :=
  t.kind = .leftParen ∨ (∃ op : UnaryOp, t.kind = op.kind) ∨ ∃ op : BinaryOp, t.kind = op.kind

/-- Whether a token can end an operand: it is a literal or closes a grouping. -/
def Token.Kind.endsOperand : Token.Kind → Bool
  | .integer | .float | .string | .bool _ | .rightParen => true
  | _ => false

/-- How many brackets are unclosed after one more token, if `n` were before it. -/
def unclosedAfter (n : Nat) (t : Token) : Nat :=
  match t.kind with
  | .leftParen => n + 1
  | .rightParen => n - 1
  | _ => n

/-- How many opening brackets of a token list are not closed in it. -/
def unclosed (ts : List Token) : Nat := ts.foldl unclosedAfter 0

def BeginsWithBinaryOp : List Token → Prop
  | [] => False
  | t :: _ => ∃ op : BinaryOp, t.kind = op.kind

/-- `IsSentence e ts`: the list spells the tree `e`, then at most one statement mark, and ends
with the end marker. -/
def IsSentence (e : Expr) (ts : List Token) : Prop :=
  ∃ w mark t, ts = w ++ mark ++ [t] ∧ w.map Token.terminal = e.yield ∧
    (mark = [] ∨ ∃ m, mark = [m] ∧ m.kind = .endOfStatement) ∧ t.kind = .endOfInput

theorem isSentence_iff_terminals {e : Expr} {ts : List Token} :
    IsSentence e ts ↔ ∃ mark, (mark = [] ∨ mark = [Terminal.sign .endOfStatement]) ∧
      ts.map Token.terminal = e.yield ++ mark ++ [.sign .endOfInput] := by
  constructor
  · rintro ⟨w, mark, t, rfl, hw, hmark, ht⟩
    refine ⟨mark.map Token.terminal, ?_, ?_⟩
    · rcases hmark with rfl | ⟨m, rfl, hm⟩
      · exact Or.inl rfl
      · exact Or.inr (congrArg (fun x => [x]) ((Token.terminal_eq_sign_iff rfl).mpr hm))
    · rw [List.map_append, List.map_append, hw, List.map_singleton,
        (Token.terminal_eq_sign_iff rfl).mpr ht]
  · rintro ⟨mark, hmark, hts⟩
    obtain ⟨v, last, rfl, hv, hlast⟩ := List.map_eq_append_iff.mp hts
    obtain ⟨w, mark', rfl, hw, hmark'⟩ := List.map_eq_append_iff.mp hv
    obtain ⟨t, rfl, ht⟩ := List.map_eq_singleton_iff.mp hlast
    refine ⟨w, mark', t, rfl, hw, ?_, (Token.terminal_eq_sign_iff rfl).mp ht⟩
    rcases hmark with rfl | rfl
    · exact Or.inl (List.map_eq_nil_iff.mp hmark')
    · obtain ⟨m, rfl, hm⟩ := List.map_eq_singleton_iff.mp hmark'
      exact Or.inr ⟨m, rfl, (Token.terminal_eq_sign_iff rfl).mp hm⟩

/-- A sentence of the grammar: it spells some conformant tree, however tall. -/
def Sentence (ts : List Token) : Prop := ∃ e : Expr, e.Conformant ∧ IsSentence e ts

end LineCalc
