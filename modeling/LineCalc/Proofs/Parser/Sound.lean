/-
# `LineCalc.Proofs.Parser.Sound` — what a run has read is what its state spells

The invariant of the parser.  A state spells terminals: those of its open frames from the
outermost in, then those of the operand in hand.  Along a run they are the terminals of
the tokens taken so far (`Reads`), every frame stands where the frame around it admits it
(`WellNested`), and every finished subtree is conformant, of the height it says, and
within the limit.

`Move.reads` is the step, `Leads.reads` the run.  A run that ends with a tree has closed
every frame, so the tree yields just what was taken: `State.run_sound`.
-/
import LineCalc.Proofs.Parser.Run

namespace LineCalc.Parser

variable {limit : Option Nat} {finish : Token} {k : Nat}

/-! ## Finished subtrees -/

/-- A finished subtree is a conformant tree of the height it says, and the limit admits it. -/
structure Subtree.Sound (limit : Option Nat) (right : Subtree) : Prop where
  conformant : right.expr.Conformant
  height_eq : right.height = right.expr.height
  within_height : within limit right.height = true

theorem within_zero (limit : Option Nat) : within limit 0 = true := by
  cases limit with
  | none => rfl
  | some bound => exact decide_eq_true (Nat.zero_le bound)

theorem within_mono {m n : Nat} (hmn : m ≤ n) (h : within limit n = true) :
    within limit m = true := by
  cases limit with
  | none => rfl
  | some bound =>
      have hn : n ≤ bound := of_decide_eq_true h
      exact decide_eq_true (Nat.le_trans hmn hn)

def Subtree.ofExpr (e : Expr) : Subtree := ⟨e, e.height⟩

theorem Subtree.sound_ofExpr {e : Expr} (he : e.Conformant)
    (hn : within limit e.height = true) : (Subtree.ofExpr e).Sound limit := ⟨he, rfl, hn⟩

theorem Subtree.Sound.eq_ofExpr {right : Subtree} (h : right.Sound limit) :
    right = .ofExpr right.expr := by
  obtain ⟨e, height⟩ := right
  exact congrArg (Subtree.mk e) h.height_eq

theorem Subtree.sound_leaf (l : Literal) : (Subtree.leaf l).Sound limit :=
  ⟨trivial, rfl, within_zero limit⟩

namespace Frame

def level : Frame → Nat
  | group _ | unary _ _ => operandLevel
  | binary _ op _ => op.level

theorem level_node (f : Frame) (e : Expr) : (f.node e).level = f.level := by
  cases f <;> rfl

/-- The left operand of a frame, if there is one, is finished and stands where it may. -/
def Sound (limit : Option Nat) : Frame → Prop
  | group _ | unary _ _ => True
  | binary left op _ => left.Sound limit ∧ op.level ≤ left.expr.level

theorem conformant_node {f : Frame} {e : Expr} (hf : f.Sound limit) (he : e.Conformant)
    (hd : f.demand ≤ e.level) : (f.node e).Conformant := by
  cases f with
  | group t => exact he
  | unary op t => exact ⟨he, hd⟩
  | binary left op t => exact ⟨hf.1.conformant, he, hf.2, hd⟩

theorem below_height {f : Frame} (hf : f.Sound limit) (e : Expr) :
    f.below e.height + 1 = (f.node e).height := by
  cases f with
  | group t => rfl
  | unary op t => rfl
  | binary left op t => simp only [below, node, Expr.height, hf.1.height_eq]

/-- Closing a frame makes its tree, unless that is too tall.  Frame and operand may have been
finished under another limit. -/
theorem close_of_within {limit' : Option Nat} {f : Frame} {right : Subtree}
    (hf : f.Sound limit') (hr : right.Sound limit')
    (hw : within limit (f.node right.expr).height = true) :
    f.close limit right = .ok (.ofExpr (f.node right.expr)) := by
  rw [close_eq, hr.height_eq, Subtree.node, below_height hf, if_pos hw]
  rfl

theorem close_of_not_within {limit' : Option Nat} {f : Frame} {right : Subtree}
    (hf : f.Sound limit') (hr : right.Sound limit')
    (hw : within limit (f.node right.expr).height = false) :
    f.close limit right = .error (.tooDeep f.token) := by
  rw [close_eq, hr.height_eq, Subtree.node, below_height hf, hw]
  rfl

theorem close_eq_ok {f : Frame} {right node : Subtree} (hf : f.Sound limit)
    (hr : right.Sound limit) (h : f.close limit right = .ok node) :
    within limit (f.node right.expr).height = true ∧
      node = .ofExpr (f.node right.expr) := by
  cases hw : within limit (f.node right.expr).height with
  | false => rw [close_of_not_within hf hr hw] at h; exact nomatch h
  | true =>
      rw [close_of_within hf hr hw] at h
      cases h
      exact ⟨rfl, rfl⟩

theorem close_sound {f : Frame} {right node : Subtree} (hf : f.Sound limit)
    (hr : right.Sound limit) (hd : f.demand ≤ right.expr.level)
    (h : f.close limit right = .ok node) : node.Sound limit := by
  obtain ⟨hw, rfl⟩ := close_eq_ok hf hr h
  exact Subtree.sound_ofExpr (conformant_node hf hr.conformant hd) hw

theorem demand_le (f : Frame) : f.demand ≤ operandLevel := by
  cases f with
  | group t => exact Nat.zero_le _
  | unary op t => exact Nat.le_refl _
  | binary left op t => exact op.level_lt

theorem level_le_of_lt_demand {f : Frame} (hk : k < operandLevel) (hf : k < f.demand) :
    k ≤ f.level := by
  cases f with
  | group t => exact absurd hf (Nat.not_lt_zero k)
  | unary op t => exact Nat.le_of_lt hk
  | binary left op t => exact Nat.le_of_lt_succ hf

/-! ## What frames spell -/

/-- The terminals of a frame up to its operand. -/
def terminals : Frame → List Terminal
  | group _ => [.sign .leftParen]
  | unary op _ => [.sign op.kind]
  | binary left op _ => left.expr.yield ++ [.sign op.kind]

/-- The terminals of a frame after its operand. -/
def closer : Frame → List Terminal
  | group _ => [.sign .rightParen]
  | unary _ _ | binary _ _ _ => []

theorem yield_node (f : Frame) (e : Expr) :
    (f.node e).yield = f.terminals ++ e.yield ++ f.closer := by
  cases f <;> simp [node, terminals, closer, Expr.yield]

theorem closer_eq_nil {f : Frame} (hf : k < f.demand) : f.closer = [] := by
  cases f with
  | group t => exact absurd hf (Nat.not_lt_zero k)
  | unary op t => rfl
  | binary left op t => rfl

end Frame

/-- The terminals of open frames, the outermost first. -/
def terminals : List Frame → List Terminal
  | [] => []
  | f :: fs => terminals fs ++ f.terminals

/-! ## Open frames -/

/-- `WellNested limit fs`: every frame makes a tree that the frame around it admits. -/
inductive WellNested (limit : Option Nat) : List Frame → Prop
  | nil : WellNested limit []
  | cons {f : Frame} {fs : List Frame} :
      f.Sound limit → demand fs ≤ f.level → WellNested limit fs → WellNested limit (f :: fs)

theorem demand_le (fs : List Frame) : demand fs ≤ operandLevel := by
  cases fs with
  | nil => exact Nat.zero_le _
  | cons f fs => exact f.demand_le

def opened (fs : List Frame) : Nat := fs.countP Frame.nests

theorem opened_cons (f : Frame) (fs : List Frame) :
    opened (f :: fs) = opened fs + f.nests.toNat := by
  cases hf : f.nests <;> simp [opened, hf]

/-- What is open is well nested and rightly counted, and the limit admits it. -/
structure Stack.Sound (limit : Option Nat) (s : Stack) : Prop where
  nested : WellNested limit s.frames
  nesting_eq : s.nesting = opened s.frames
  within_nesting : within limit s.nesting = true

theorem Stack.sound_empty : Stack.empty.Sound limit := ⟨.nil, rfl, within_zero limit⟩

theorem Stack.Sound.push {s : Stack} {f : Frame} (hs : s.Sound limit) (hf : f.Sound limit)
    (hd : demand s.frames ≤ f.level) (hn : within limit (s.nesting + f.nests.toNat) = true) :
    (⟨f :: s.frames, s.nesting + f.nests.toNat⟩ : Stack).Sound limit := by
  refine ⟨.cons hf hd hs.nested, ?_, hn⟩
  rw [opened_cons, hs.nesting_eq]

theorem Stack.Sound.pop {f : Frame} {fs : List Frame} {n : Nat}
    (hs : (⟨f :: fs, n⟩ : Stack).Sound limit) :
    f.Sound limit ∧ demand fs ≤ f.level ∧
      (⟨fs, n - f.nests.toNat⟩ : Stack).Sound limit := by
  obtain ⟨hnested, hn, hw⟩ := hs
  cases hnested with
  | cons hf hd hfs =>
      refine ⟨hf, hd, hfs, ?_, within_mono (Nat.sub_le _ _) hw⟩
      have hn : n = opened (f :: fs) := hn
      rw [hn, opened_cons, Nat.add_sub_cancel]

/-! ## The operand in hand -/

/-- `Held limit k read s right`: the level of the operand `right` is at least `k` and what the
frames of `s` demand, and frames and operand spell `read`. -/
structure Held (limit : Option Nat) (k : Nat) (read : List Terminal) (s : Stack)
    (right : Subtree) : Prop where
  stack : s.Sound limit
  operand : right.Sound limit
  demand_le : demand s.frames ≤ right.expr.level
  level_le : k ≤ right.expr.level
  spells : terminals s.frames ++ right.expr.yield = read

variable {read : List Terminal}

theorem Held.mono {k' : Nat} {s : Stack} {right : Subtree} (hk : k' ≤ k)
    (h : Held limit k read s right) : Held limit k' read s right :=
  ⟨h.stack, h.operand, h.demand_le, Nat.le_trans hk h.level_le, h.spells⟩

theorem Held.close {f : Frame} {fs : List Frame} {n : Nat} {right node : Subtree}
    (hk : k < operandLevel) (hf : k < f.demand)
    (h : Held limit k read ⟨f :: fs, n⟩ right) (hnode : f.close limit right = .ok node) :
    Held limit k read ⟨fs, n - f.nests.toNat⟩ node := by
  obtain ⟨hfs, hd, hstack⟩ := h.stack.pop
  have hsound := Frame.close_sound hfs h.operand h.demand_le hnode
  obtain ⟨-, rfl⟩ := Frame.close_eq_ok hfs h.operand hnode
  refine ⟨hstack, hsound, ?_, ?_, ?_⟩
  · rw [Subtree.ofExpr, Frame.level_node]; exact hd
  · rw [Subtree.ofExpr, Frame.level_node]; exact Frame.level_le_of_lt_demand hk hf
  · rw [Subtree.ofExpr, Frame.yield_node, Frame.closer_eq_nil hf, List.append_nil,
      ← List.append_assoc]
    exact h.spells

/-- Folding keeps what is spelled, and leaves no frame that demands more than `k`. -/
theorem Held.fold {s s' : Stack} {right right' : Subtree} (hk : k < operandLevel)
    (h : Held limit k read s right) (hfold : s.fold limit k right = .ok (s', right')) :
    Held limit k read s' right' ∧ demand s'.frames ≤ k :=
  Stack.fold_invariant hk (fun hf hp hnode => hp.close hk hf hnode) h hfold

/-! ## States -/

namespace State

/-- `Reads limit k s w`: the state is sound and spells the tokens `w`, and the operand in hand, if
there is one, has at least the level `k`. -/
def Reads (limit : Option Nat) (k : Nat) : State → List Token → Prop
  | wanting s, w => s.Sound limit ∧ terminals s.frames = w.map Token.terminal
  | holding s right, w => Held limit k (w.map Token.terminal) s right

theorem reads_initial : State.initial.Reads limit k [] := ⟨Stack.sound_empty, rfl⟩

theorem Reads.mono {k' : Nat} {s : State} {w : List Token} (hk : k' ≤ k)
    (h : s.Reads limit k w) : s.Reads limit k' w := by
  cases s with
  | wanting s => exact h
  | holding s right => exact Held.mono hk h

/-- One move spells one more token.  The operand in hand before it need not be tighter than the
token. -/
theorem Move.reads {s s' : State} {t : Token} {w : List Token} (hm : Move limit s t s')
    (h : s.Reads limit (closingLevel [t]) w) : s'.Reads limit operandLevel (w ++ [t]) := by
  have hmap : (w ++ [t]).map Token.terminal = w.map Token.terminal ++ [t.terminal] :=
    List.map_append
  cases hm with
  | literal ht =>
      obtain ⟨hs, hspells⟩ := h
      refine ⟨hs, Subtree.sound_leaf _, demand_le _, Nat.le_refl _, ?_⟩
      rw [hmap, hspells, ht]
      rfl
  | @unary s _ op ht hn =>
      obtain ⟨hs, hspells⟩ := h
      refine ⟨hs.push (f := .unary op t) trivial (demand_le _) hn, ?_⟩
      rw [hmap, ← hspells, (Token.terminal_eq_sign_iff op.kind_keepsLexeme).mpr ht]
      rfl
  | @group s _ ht hn =>
      obtain ⟨hs, hspells⟩ := h
      refine ⟨hs.push (f := .group t) trivial (demand_le _) hn, ?_⟩
      rw [hmap, ← hspells, (Token.terminal_eq_sign_iff rfl).mpr ht]
      rfl
  | @binary s s₁ right left _ op ht hfold =>
      rw [closingLevel_of_op ht] at h
      obtain ⟨hleft, hd⟩ := Held.fold op.level_lt h hfold
      refine ⟨hleft.stack.push (f := .binary left op t) ⟨hleft.operand, hleft.level_le⟩ hd
        hleft.stack.within_nesting, ?_⟩
      rw [hmap, ← hleft.spells, (Token.terminal_eq_sign_iff op.kind_keepsLexeme).mpr ht,
        List.append_assoc]
      rfl
  | @close s right inner node _ u fs n ht hfold hnode =>
      obtain ⟨hinner, -⟩ := Held.fold (by decide) (Held.mono (Nat.zero_le _) h) hfold
      obtain ⟨hf, hd, hstack⟩ := hinner.stack.pop
      have hsound := Frame.close_sound hf hinner.operand (Nat.zero_le _) hnode
      obtain ⟨-, rfl⟩ := Frame.close_eq_ok hf hinner.operand hnode
      refine ⟨hstack, hsound, demand_le _, Nat.le_refl _, ?_⟩
      rw [hmap, ← hinner.spells, (Token.terminal_eq_sign_iff rfl).mpr ht, Subtree.ofExpr,
        Frame.yield_node]
      simp only [terminals, Frame.closer, List.append_assoc]

theorem Leads.reads {s : State} {w : List Token} (h : Leads limit .initial w s) :
    s.Reads limit operandLevel w :=
  h.invariant (P := State.Reads limit operandLevel)
    (fun hm hp => hm.reads (hp.mono (Nat.le_of_lt (closingLevel_lt _)))) reads_initial

theorem conclude_sound {s : State} {t : Token} {w : List Token} {tree : Subtree}
    (h : s.Reads limit k w) (hc : s.conclude limit t = .ok tree) :
    tree.Sound limit ∧ w.map Token.terminal = tree.expr.yield := by
  obtain ⟨st, right, n, rfl, hfold⟩ := conclude_eq_ok hc
  obtain ⟨hheld, -⟩ := Held.fold (by decide) (Held.mono (Nat.zero_le k) h) hfold
  exact ⟨hheld.operand, hheld.spells.symm⟩

/-! ## Where a run ends -/

/-- No token of `rest` is taken in the state `s`. -/
def Stuck (limit : Option Nat) (s : State) : List Token → Prop
  | [] => True
  | t :: _ => s.advance limit t = .ok none

/-- A run ends where it is stuck, with what is concluded there, or at a token that exceeds the
limit. -/
theorem run_ends (limit : Option Nat) (finish : Token) (s : State) (ts : List Token) :
    (∃ w rest s', ts = w ++ rest ∧ Leads limit s w s' ∧ Stuck limit s' rest ∧
      run limit finish s ts
        = (s'.conclude limit (rest.headD finish)).map fun tree => (tree, rest)) ∨
    (∃ w t rest s' e, ts = w ++ t :: rest ∧ Leads limit s w s' ∧
      s'.advance limit t = .error e ∧ run limit finish s ts = .error e) := by
  induction ts generalizing s with
  | nil => exact Or.inl ⟨[], [], s, rfl, .refl s, trivial, run_nil s⟩
  | cons t ts ih =>
      cases ha : s.advance limit t with
      | error e => exact Or.inr ⟨[], t, ts, s, e, rfl, .refl s, ha, run_cons_of_error ha⟩
      | ok next =>
          cases next with
          | none => exact Or.inl ⟨[], t :: ts, s, rfl, .refl s, ha, run_cons_of_stuck ha⟩
          | some s₁ =>
              have hm := Move.of_advance ha
              rw [run_cons_of_move hm]
              rcases ih s₁ with ⟨w, rest, s', rfl, hw, hstuck, hrun⟩ |
                ⟨w, u, rest, s', e, rfl, hw, herr, hrun⟩
              · exact Or.inl ⟨t :: w, rest, s', rfl, .step hm hw, hstuck, hrun⟩
              · exact Or.inr ⟨t :: w, u, rest, s', e, rfl, .step hm hw, herr, hrun⟩

theorem Stuck.not_beginsWithBinaryOp {s : Stack} {right : Subtree} {rest : List Token}
    (h : Stuck limit (holding s right) rest) : ¬ BeginsWithBinaryOp rest := by
  cases rest with
  | nil => exact id
  | cons t ts =>
      rintro ⟨op, ht⟩
      have h : extend limit s right t = .ok none := h
      unfold extend at h
      rw [BinaryOp.ofKind?_eq_some_iff.mpr ht] at h
      cases hfold : s.fold limit op.level right with
      | error e => simp only [hfold] at h; exact nomatch h
      | ok p => simp only [hfold] at h; exact nomatch h

/-- A run that ends with a tree has taken what the tree spells, and stops before a token that is
no binary operator. -/
theorem run_sound {ts rest : List Token} {tree : Subtree}
    (h : run limit finish .initial ts = .ok (tree, rest)) :
    ∃ w s, ts = w ++ rest ∧ Leads limit .initial w s ∧
      tree.Sound limit ∧ w.map Token.terminal = tree.expr.yield ∧ ¬ BeginsWithBinaryOp rest := by
  rcases run_ends limit finish .initial ts with
    ⟨w, rest', s, rfl, hw, hstuck, hrun⟩ | ⟨w, t, rest', s, e, rfl, -, -, hrun⟩
  · rw [hrun] at h
    cases hc : s.conclude limit (rest'.headD finish) with
    | error e => rw [hc] at h; exact nomatch h
    | ok tree' =>
        rw [hc] at h
        cases h
        obtain ⟨hsound, hyield⟩ := conclude_sound hw.reads hc
        refine ⟨w, s, rfl, hw, hsound, hyield, ?_⟩
        obtain ⟨st, right, n, rfl, -⟩ := conclude_eq_ok hc
        exact hstuck.not_beginsWithBinaryOp
  · rw [hrun] at h
    exact nomatch h

end State

end LineCalc.Parser
