/-
# `LineCalc.Proofs.Parser.Run` — how a run of the parser moves

The moves of the parser, each said once, so that no later proof opens the parser again.

A frame *demands* an operand of at least some level; an operator of a lower level, or
anything else that ends the operand, closes the frame.  `Stack.fold_close` and
`Stack.fold_stop` are the two equations of folding in these words, `Move` lists what
taking one token can do, and `Leads` is a sequence of moves.  What a run does before the
tokens `rest` with an operand in hand depends on them through `closingLevel rest` only
(`State.run_holding`), so a frame that the tokens close may as well be closed first
(`State.run_close`).
-/
import LineCalc.Proofs.Grammar

namespace LineCalc.Parser

variable {limit : Option Nat} {finish : Token} {level : Nat}

/-! ## Frames -/

namespace Frame

def token : Frame → Token
  | group t | unary _ t | binary _ _ t => t

/-- The level that the operand of a frame has at least. -/
def demand : Frame → Nat
  | group _ => 0
  | unary _ _ => operandLevel
  | binary _ op _ => op.level + 1

def nests : Frame → Bool
  | group _ | unary _ _ => true
  | binary _ _ _ => false

/-- The tree that a frame makes of its operand. -/
def node (e : Expr) : Frame → Expr
  | group _ => .group e
  | unary op _ => .unary op e
  | binary left op _ => .binary left.expr op e

/-- The height of the tallest child, where the operand has height `h`. -/
def below (h : Nat) : Frame → Nat
  | group _ | unary _ _ => h
  | binary left _ _ => max left.height h

theorem close_eq (f : Frame) (right : Subtree) :
    f.close limit right
      = Subtree.node limit f.token (f.node right.expr) (f.below right.height) := by
  cases f <;> rfl

end Frame

/-- What the innermost open frame demands of its operand. -/
def demand : List Frame → Nat
  | [] => 0
  | f :: _ => f.demand

/-! ## Folding -/

namespace Stack

theorem fold_close {f : Frame} {fs : List Frame} {n : Nat} {right : Subtree}
    (hf : level < f.demand) :
    fold limit level ⟨f :: fs, n⟩ right
      = (f.close limit right).bind fun node => fold limit level ⟨fs, n - f.nests.toNat⟩ node := by
  cases f with
  | group t => exact absurd hf (Nat.not_lt_zero level)
  | unary op t => rfl
  | binary left op t =>
      have hop : level ≤ op.level := Nat.le_of_lt_succ hf
      simp only [fold, foldFrames, if_pos hop]
      rfl

/-- A frame that demands no more than `level` stays open, and so does all around it. -/
theorem fold_stop {s : Stack} {right : Subtree} (hs : demand s.frames ≤ level)
    (hl : level < operandLevel) : s.fold limit level right = .ok (s, right) := by
  obtain ⟨frames, n⟩ := s
  cases frames with
  | nil => rfl
  | cons f fs =>
      cases f with
      | group t => rfl
      | unary op t => exact absurd (Nat.lt_of_le_of_lt hs hl) (Nat.lt_irrefl _)
      | binary left op t =>
          have hop : ¬ level ≤ op.level := Nat.not_le.mpr hs
          simp only [fold, foldFrames, if_neg hop]

/-- What each closing keeps holds of the result of folding, and no frame that demands more than
`level` is left innermost. -/
theorem fold_invariant {P : Stack → Subtree → Prop} (hl : level < operandLevel)
    (hclose : ∀ {f : Frame} {fs : List Frame} {n : Nat} {right node : Subtree},
      level < f.demand → P ⟨f :: fs, n⟩ right → f.close limit right = .ok node →
        P ⟨fs, n - f.nests.toNat⟩ node)
    {s s' : Stack} {right right' : Subtree} (hp : P s right)
    (h : s.fold limit level right = .ok (s', right')) :
    P s' right' ∧ demand s'.frames ≤ level := by
  obtain ⟨frames, n⟩ := s
  induction frames generalizing n right with
  | nil => cases h; exact ⟨hp, Nat.zero_le _⟩
  | cons f fs ih =>
      by_cases hf : level < f.demand
      · rw [fold_close hf] at h
        cases hnode : f.close limit right with
        | error e => rw [hnode] at h; exact nomatch h
        | ok node =>
            rw [hnode] at h
            exact ih _ (hclose hf hp hnode) h
      · have hstop : demand (f :: fs) ≤ level := Nat.not_lt.mp hf
        rw [fold_stop hstop hl] at h
        cases h
        exact ⟨hp, hstop⟩

end Stack

/-! ## Moves -/

namespace State

/-- `Move limit s t s'`: taking the token `t` leads from the state `s` to the state `s'`. -/
inductive Move (limit : Option Nat) : State → Token → State → Prop
  | literal {s : Stack} {t : Token} {l : Literal} : t.terminal = l.terminal →
      Move limit (wanting s) t (holding s (.leaf l))
  | unary {s : Stack} {t : Token} {op : UnaryOp} : t.kind = op.kind →
      within limit (s.nesting + 1) = true →
      Move limit (wanting s) t (wanting ⟨.unary op t :: s.frames, s.nesting + 1⟩)
  | group {s : Stack} {t : Token} : t.kind = .leftParen →
      within limit (s.nesting + 1) = true →
      Move limit (wanting s) t (wanting ⟨.group t :: s.frames, s.nesting + 1⟩)
  | binary {s s' : Stack} {right left : Subtree} {t : Token} {op : BinaryOp} :
      t.kind = op.kind → s.fold limit op.level right = .ok (s', left) →
      Move limit (holding s right) t (wanting ⟨.binary left op t :: s'.frames, s'.nesting⟩)
  | close {s : Stack} {right inner node : Subtree} {t u : Token} {fs : List Frame} {n : Nat} :
      t.kind = .rightParen → s.fold limit 0 right = .ok (⟨.group u :: fs, n⟩, inner) →
      (Frame.group u).close limit inner = .ok node →
      Move limit (holding s right) t (holding ⟨fs, n - 1⟩ node)

theorem Move.of_begin {s : Stack} {t : Token} {s' : State}
    (h : begin limit s t = .ok (some s')) : Move limit (wanting s) t s' := by
  unfold begin at h
  split at h
  next l hl => cases h; exact .literal (Literal.ofToken?_eq_some_iff.mp hl)
  next =>
    split at h
    next op hop =>
      unfold Stack.descend at h
      split at h
      next hn => cases h; exact .unary (UnaryOp.ofKind?_eq_some_iff.mp hop) hn
      next => exact nomatch h
    next =>
      split at h
      next hk =>
        unfold Stack.descend at h
        split at h
        next hn => cases h; exact .group hk hn
        next => exact nomatch h
      next => exact nomatch h

theorem Move.of_closeGroup {s : Stack} {right : Subtree} {t : Token} {s' : State}
    (ht : t.kind = .rightParen) (h : closeGroup limit s right = .ok (some s')) :
    Move limit (holding s right) t s' := by
  unfold closeGroup at h
  cases hfold : s.fold limit 0 right with
  | error e => rw [hfold] at h; exact nomatch h
  | ok p =>
      obtain ⟨⟨frames, n⟩, inner⟩ := p
      rw [hfold] at h
      cases frames with
      | nil => exact nomatch h
      | cons f fs =>
          cases f with
          | unary _ _ | binary _ _ _ => exact nomatch h
          | group u =>
              cases hnode : (Frame.group u).close limit inner with
              | error e => simp only [bind, Except.bind, hnode] at h; exact nomatch h
              | ok node =>
                  simp only [bind, Except.bind, hnode] at h
                  cases h
                  exact .close ht hfold hnode

theorem Move.of_extend {s : Stack} {right : Subtree} {t : Token} {s' : State}
    (h : extend limit s right t = .ok (some s')) : Move limit (holding s right) t s' := by
  unfold extend at h
  split at h
  next op hop =>
    cases hfold : s.fold limit op.level right with
    | error e => rw [hfold] at h; exact nomatch h
    | ok p =>
        rw [hfold] at h
        cases h
        exact .binary (BinaryOp.ofKind?_eq_some_iff.mp hop) hfold
  next =>
    split at h
    next hk => exact .of_closeGroup hk h
    next => exact nomatch h

/-- The moves are all that taking a token can do. -/
theorem Move.of_advance {s s' : State} {t : Token} (h : s.advance limit t = .ok (some s')) :
    Move limit s t s' := by
  cases s with
  | wanting s => exact .of_begin h
  | holding s right => exact .of_extend h

theorem Move.advance_eq {s s' : State} {t : Token} (h : Move limit s t s') :
    s.advance limit t = .ok (some s') := by
  cases h with
  | literal ht =>
      simp only [advance, begin, Literal.ofToken?_eq_some_iff.mpr ht]
  | @unary s _ op ht hn =>
      have hl : Literal.ofToken? t = none := by
        unfold Literal.ofToken?; rw [ht]; cases op <;> rfl
      simp only [advance, begin, hl, UnaryOp.ofKind?_eq_some_iff.mpr ht, Stack.descend, if_pos hn]
      rfl
  | group ht hn =>
      have hl : Literal.ofToken? t = none := by
        unfold Literal.ofToken?; rw [ht]
      have hop : UnaryOp.ofKind? t.kind = none := by rw [ht]; rfl
      simp only [advance, begin, hl, hop, if_pos ht, Stack.descend, if_pos hn]
      rfl
  | binary ht hfold =>
      simp only [advance, extend, BinaryOp.ofKind?_eq_some_iff.mpr ht, hfold]
      rfl
  | close ht hfold hnode =>
      have hop : BinaryOp.ofKind? t.kind = none := by rw [ht]; rfl
      simp only [advance, extend, hop, if_pos ht, closeGroup, hfold, bind, Except.bind, hnode]
      rfl

/-- One token after another: `Leads limit s w s'` says that the tokens `w` lead from `s` to `s'`. -/
inductive Leads (limit : Option Nat) : State → List Token → State → Prop
  | refl (s : State) : Leads limit s [] s
  | step {s s₁ s₂ : State} {t : Token} {w : List Token} :
      Move limit s t s₁ → Leads limit s₁ w s₂ → Leads limit s (t :: w) s₂

theorem Leads.invariant {P : State → List Token → Prop}
    (hstep : ∀ {s s' : State} {t : Token} {w : List Token},
      Move limit s t s' → P s w → P s' (w ++ [t]))
    {s s' : State} {w : List Token} (h : Leads limit s w s') {v : List Token} (hp : P s v) :
    P s' (v ++ w) := by
  induction h generalizing v with
  | refl => rw [List.append_nil]; exact hp
  | step hm _ ih =>
      have := ih (hstep hm hp)
      rwa [List.append_assoc] at this

/-! ## Runs -/

theorem run_nil (s : State) :
    run limit finish s [] = (s.conclude limit finish).map fun tree => (tree, []) := by
  unfold run
  cases s.conclude limit finish <;> rfl

theorem run_cons_of_move {s s' : State} {t : Token} {ts : List Token} (h : Move limit s t s') :
    run limit finish s (t :: ts) = run limit finish s' ts := by
  rw [run, h.advance_eq]
  rfl

theorem run_cons_of_stuck {s : State} {t : Token} {ts : List Token}
    (h : s.advance limit t = .ok none) :
    run limit finish s (t :: ts) = (s.conclude limit t).map fun tree => (tree, t :: ts) := by
  rw [run, h]
  cases s.conclude limit t <;> rfl

theorem run_cons_of_error {s : State} {t : Token} {ts : List Token} {e : ParseError}
    (h : s.advance limit t = .error e) : run limit finish s (t :: ts) = .error e := by
  rw [run, h]
  rfl

theorem Leads.run_append {s s' : State} {w : List Token} (h : Leads limit s w s')
    (rest : List Token) : run limit finish s (w ++ rest) = run limit finish s' rest := by
  induction h with
  | refl => rfl
  | step hm _ ih => exact (run_cons_of_move hm).trans ih

theorem conclude_eq_ok {s : State} {t : Token} {tree : Subtree}
    (h : s.conclude limit t = .ok tree) :
    ∃ st right n, s = holding st right ∧ st.fold limit 0 right = .ok (⟨[], n⟩, tree) := by
  cases s with
  | wanting st => exact nomatch h
  | holding st right =>
      cases hfold : st.fold limit 0 right with
      | error e => simp only [conclude, hfold] at h; exact nomatch h
      | ok p =>
          obtain ⟨⟨frames, n⟩, inner⟩ := p
          simp only [conclude, hfold] at h
          cases frames with
          | nil => cases h; exact ⟨st, right, n, rfl, hfold⟩
          | cons f fs => exact nomatch h

/-- The level of the operator that the tokens begin with; without one, everything is closed. -/
def closingLevel : List Token → Nat
  | [] => 0
  | t :: _ => ((BinaryOp.ofKind? t.kind).map BinaryOp.level).getD 0

theorem closingLevel_lt (ts : List Token) : closingLevel ts < operandLevel := by
  cases ts with
  | nil => decide
  | cons t ts =>
      cases hop : BinaryOp.ofKind? t.kind with
      | none => simp only [closingLevel, hop]; decide
      | some op => simp only [closingLevel, hop]; exact op.level_lt

theorem closingLevel_of_op {t : Token} {op : BinaryOp} (ht : t.kind = op.kind) (ts : List Token) :
    closingLevel (t :: ts) = op.level := by
  simp only [closingLevel, BinaryOp.ofKind?_eq_some_iff.mpr ht]
  rfl

/-- With an operand in hand, a run begins by folding, and depends on nothing else. -/
theorem run_congr {s s' : Stack} {right right' : Subtree} {rest : List Token}
    (h : s.fold limit (closingLevel rest) right = s'.fold limit (closingLevel rest) right') :
    run limit finish (holding s right) rest = run limit finish (holding s' right') rest := by
  cases rest with
  | nil =>
      have h0 : s.fold limit 0 right = s'.fold limit 0 right' := h
      simp only [run_nil, conclude, h0]
  | cons t ts =>
      cases hop : BinaryOp.ofKind? t.kind with
      | some op =>
          have ht := BinaryOp.ofKind?_eq_some_iff.mp hop
          rw [closingLevel_of_op ht] at h
          simp only [run, advance, extend, hop, h]
          cases s'.fold limit op.level right' <;> rfl
      | none =>
          have h0 : s.fold limit 0 right = s'.fold limit 0 right' := by
            simpa [closingLevel, hop] using h
          simp only [run, advance, extend, closeGroup, conclude, hop, h0]

theorem run_of_fold_error {s : Stack} {right : Subtree} {rest : List Token} {e : ParseError}
    (h : s.fold limit (closingLevel rest) right = .error e) :
    run limit finish (holding s right) rest = .error e := by
  cases rest with
  | nil =>
      have h0 : s.fold limit 0 right = .error e := h
      simp only [run_nil, conclude, h0]
      rfl
  | cons t ts =>
      cases hop : BinaryOp.ofKind? t.kind with
      | some op =>
          have ht := BinaryOp.ofKind?_eq_some_iff.mp hop
          rw [closingLevel_of_op ht] at h
          simp only [run, advance, extend, hop, h]
          rfl
      | none =>
          have h0 : s.fold limit 0 right = .error e := by
            simpa [closingLevel, hop] using h
          simp only [run, advance, extend, closeGroup, conclude, hop, h0]
          split <;> rfl

/-- A frame that the tokens close may be closed first. -/
theorem run_close {f : Frame} {fs : List Frame} {n : Nat} {right : Subtree} {rest : List Token}
    (hf : closingLevel rest < f.demand) :
    run limit finish (holding ⟨f :: fs, n⟩ right) rest
      = (f.close limit right).bind fun node =>
          run limit finish (holding ⟨fs, n - f.nests.toNat⟩ node) rest := by
  have hfold : Stack.fold limit (closingLevel rest) ⟨f :: fs, n⟩ right
      = (f.close limit right).bind fun node =>
          Stack.fold limit (closingLevel rest) ⟨fs, n - f.nests.toNat⟩ node :=
    Stack.fold_close hf
  cases hnode : f.close limit right with
  | error e =>
      rw [hnode] at hfold
      exact run_of_fold_error hfold
  | ok node =>
      rw [hnode] at hfold
      exact run_congr hfold

end State

end LineCalc.Parser
