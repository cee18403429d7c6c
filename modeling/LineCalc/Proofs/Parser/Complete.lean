/-
# `LineCalc.Proofs.Parser.Complete` — every conformant tree is read back

The converse of soundness, and with it the language that the parser accepts.

`State.run_yield` is the induction on the tree: from any stack that admits it, a run over
the yield of a conformant tree arrives where the tree itself is in hand.  It may not have
closed every frame of the tree by then, since that happens before the next token; so the
statement compares the rest of the two runs, and asks of the tokens that follow only that
they do not begin with an operator tighter than the tree.  A limit is never met if it
admits the height of the tree above what is open.
-/
import LineCalc.Proofs.Parser.Sound

namespace LineCalc.Parser

variable {limit : Option Nat} {finish : Token}

theorem closingLevel_of_rightParen {t : Token} (ht : t.kind = .rightParen) (ts : List Token) :
    State.closingLevel (t :: ts) = 0 := by
  rw [State.closingLevel, ht]
  rfl

theorem ofKind?_eq_none {t : Token} {ts : List Token} (h : ¬ BeginsWithBinaryOp (t :: ts)) :
    BinaryOp.ofKind? t.kind = none := by
  cases hop : BinaryOp.ofKind? t.kind with
  | none => rfl
  | some op => exact absurd ⟨op, BinaryOp.ofKind?_eq_some_iff.mp hop⟩ h

theorem closingLevel_eq_zero {ts : List Token} (h : ¬ BeginsWithBinaryOp ts) :
    State.closingLevel ts = 0 := by
  cases ts with
  | nil => rfl
  | cons t ts =>
      rw [State.closingLevel, ofKind?_eq_none h]
      rfl

namespace Frame

theorem height_lt_node (f : Frame) (e : Expr) : e.height < (f.node e).height := by
  cases f <;> simp only [node, Expr.height] <;> omega

theorem close_ofExpr {f : Frame} {e : Expr} (hf : f.Sound limit) (he : e.Conformant)
    (hn : within limit (f.node e).height = true) :
    f.close limit (.ofExpr e) = .ok (.ofExpr (f.node e)) :=
  close_of_within hf
    (Subtree.sound_ofExpr he (within_mono (Nat.le_of_lt (f.height_lt_node e)) hn)) hn

end Frame

namespace State

/-- A tree in hand that the tokens close is its operand in hand under its own frame. -/
theorem run_node {f : Frame} {s : Stack} {e : Expr} {rest : List Token} (hf : f.Sound limit)
    (he : e.Conformant) (hn : within limit (f.node e).height = true)
    (hrest : closingLevel rest < f.demand) :
    run limit finish (holding ⟨f :: s.frames, s.nesting + f.nests.toNat⟩ (.ofExpr e)) rest
      = run limit finish (holding s (.ofExpr (f.node e))) rest := by
  rw [run_close hrest, Frame.close_ofExpr hf he hn, Nat.add_sub_cancel]
  rfl

/-- Reading the yield of a conformant tree comes to the same as having the tree in hand. -/
theorem run_yield {e : Expr} (he : e.Conformant) {s : Stack} (hd : demand s.frames ≤ e.level)
    (hn : within limit (s.nesting + e.height) = true) {w rest : List Token}
    (hw : w.map Token.terminal = e.yield) (hrest : closingLevel rest ≤ e.level) :
    run limit finish (wanting s) (w ++ rest)
      = run limit finish (holding s (.ofExpr e)) rest := by
  have hnode : within limit e.height = true := within_mono (Nat.le_add_left _ _) hn
  induction e generalizing s w rest with
  | literal l =>
      obtain ⟨t, w, rfl, ht, hw⟩ := List.map_eq_cons_iff.mp hw
      obtain rfl := List.map_eq_nil_iff.mp hw
      exact run_cons_of_move (.literal ht)
  | group e ih =>
      obtain ⟨t, w, rfl, ht, hw⟩ := List.map_eq_cons_iff.mp hw
      obtain ⟨w, v, rfl, hwe, hv⟩ := List.map_eq_append_iff.mp hw
      obtain ⟨u, v, rfl, hu, hv⟩ := List.map_eq_cons_iff.mp hv
      obtain rfl := List.map_eq_nil_iff.mp hv
      have ht := (Token.terminal_eq_sign_iff rfl).mp ht
      have hu := (Token.terminal_eq_sign_iff rfl).mp hu
      have hinner : within limit (s.nesting + 1 + e.height) = true :=
        within_mono (by simp only [Expr.height]; omega) hn
      calc run limit finish (wanting s) (t :: (w ++ [u]) ++ rest)
          = run limit finish (wanting ⟨.group t :: s.frames, s.nesting + 1⟩)
              (w ++ (u :: rest)) := by
            rw [List.cons_append, List.append_assoc]
            exact run_cons_of_move (.group ht (within_mono (Nat.le_add_right _ _) hinner))
        _ = run limit finish (holding ⟨.group t :: s.frames, s.nesting + 1⟩ (.ofExpr e))
              (u :: rest) :=
            ih he (Nat.zero_le _) hinner hwe
              (by rw [closingLevel_of_rightParen hu]; exact Nat.zero_le _)
              (within_mono (Nat.le_add_left _ _) hinner)
        _ = run limit finish (holding s (.ofExpr (.group e))) rest :=
            run_cons_of_move (.close hu (Stack.fold_stop (Nat.le_refl 0) (by decide))
              (Frame.close_ofExpr (f := .group t) trivial he hnode))
  | unary op e ih =>
      obtain ⟨t, w, rfl, ht, hw⟩ := List.map_eq_cons_iff.mp hw
      have ht := (Token.terminal_eq_sign_iff op.kind_keepsLexeme).mp ht
      have hinner : within limit (s.nesting + 1 + e.height) = true :=
        within_mono (by simp only [Expr.height]; omega) hn
      have hlt := closingLevel_lt rest
      calc run limit finish (wanting s) (t :: w ++ rest)
          = run limit finish (wanting ⟨.unary op t :: s.frames, s.nesting + 1⟩) (w ++ rest) :=
            run_cons_of_move (.unary ht (within_mono (Nat.le_add_right _ _) hinner))
        _ = run limit finish (holding ⟨.unary op t :: s.frames, s.nesting + 1⟩ (.ofExpr e))
              rest :=
            ih he.1 (s := ⟨.unary op t :: s.frames, s.nesting + 1⟩) he.2 hinner hw
              (Nat.le_trans (Nat.le_of_lt hlt) he.2)
              (within_mono (Nat.le_add_left _ _) hinner)
        _ = run limit finish (holding s (.ofExpr (.unary op e))) rest :=
            run_node (f := .unary op t) trivial he.1 hnode hlt
  | binary left op right ihl ihr =>
      obtain ⟨hleft, hright, hll, hlr⟩ := he
      obtain ⟨wl, v, rfl, hwl, hv⟩ := List.map_eq_append_iff.mp hw
      obtain ⟨t, wr, rfl, ht, hwr⟩ := List.map_eq_cons_iff.mp hv
      have ht := (Token.terminal_eq_sign_iff op.kind_keepsLexeme).mp ht
      have hnl : within limit (s.nesting + left.height) = true :=
        within_mono (by simp only [Expr.height]; omega) hn
      have hnr : within limit (s.nesting + right.height) = true :=
        within_mono (by simp only [Expr.height]; omega) hn
      have hwl' := within_mono (Nat.le_add_left _ _) hnl
      calc run limit finish (wanting s) (wl ++ t :: wr ++ rest)
          = run limit finish (wanting s) (wl ++ (t :: (wr ++ rest))) := by
            rw [List.append_assoc, List.cons_append]
        _ = run limit finish (holding s (.ofExpr left)) (t :: (wr ++ rest)) :=
            ihl hleft (Nat.le_trans hd hll) hnl hwl (by rw [closingLevel_of_op ht]; exact hll)
              hwl'
        _ = run limit finish (wanting ⟨.binary (.ofExpr left) op t :: s.frames, s.nesting⟩)
              (wr ++ rest) :=
            run_cons_of_move (.binary ht (Stack.fold_stop hd op.level_lt))
        _ = run limit finish
              (holding ⟨.binary (.ofExpr left) op t :: s.frames, s.nesting⟩ (.ofExpr right))
              rest :=
            ihr hright (s := ⟨.binary (.ofExpr left) op t :: s.frames, s.nesting⟩) hlr hnr hwr
              (Nat.le_trans hrest (Nat.le_of_lt hlr)) (within_mono (Nat.le_add_left _ _) hnr)
        _ = run limit finish (holding s (.ofExpr (.binary left op right))) rest :=
            run_node (f := .binary (.ofExpr left) op t)
              ⟨Subtree.sound_ofExpr hleft hwl', hll⟩ hright hnode (Nat.lt_succ_of_le hrest)

theorem run_holding_empty {tree : Subtree} {rest : List Token} (h : ¬ BeginsWithBinaryOp rest) :
    run limit finish (holding .empty tree) rest = .ok (tree, rest) := by
  cases rest with
  | nil => rfl
  | cons t ts =>
      have hop : BinaryOp.ofKind? t.kind = none := ofKind?_eq_none h
      have hstuck : (holding .empty tree).advance limit t = .ok none := by
        simp only [advance, extend, hop]
        split <;> rfl
      rw [run_cons_of_stuck hstuck]
      rfl

end State

/-! ## What the parser accepts -/

/-- Reading an expression gives a tree exactly when the tokens spell it, up to a token that is no
binary operator. -/
theorem subtree_eq_ok_iff {p q : Parser} {tree : Subtree} :
    p.subtree limit = .ok (tree, q) ↔
      q.finish = p.finish ∧ tree.Sound limit ∧ ¬ BeginsWithBinaryOp q.rest ∧
        ∃ w, p.rest = w ++ q.rest ∧ w.map Token.terminal = tree.expr.yield := by
  constructor
  · intro h
    cases hrun : State.run limit p.finish .initial p.rest with
    | error e => simp only [subtree, hrun] at h; exact nomatch h
    | ok r =>
        obtain ⟨tree', rest⟩ := r
        simp only [subtree, hrun] at h
        cases h
        obtain ⟨w, s, hp, -, hsound, hyield, hbegins⟩ := State.run_sound hrun
        exact ⟨rfl, hsound, hbegins, w, hp, hyield⟩
  · rintro ⟨hfinish, hsound, hbegins, w, hp, hyield⟩
    obtain ⟨rest, finish⟩ := q
    obtain rfl : finish = p.finish := hfinish
    have hlevel : State.closingLevel rest ≤ tree.expr.level := by
      rw [closingLevel_eq_zero hbegins]
      exact Nat.zero_le _
    have hn : within limit (Stack.empty.nesting + tree.expr.height) = true := by
      rw [show Stack.empty.nesting = 0 from rfl, Nat.zero_add, ← hsound.height_eq]
      exact hsound.within_height
    have hrun : State.run limit p.finish .initial p.rest = .ok (tree, rest) := by
      rw [hp]
      refine (State.run_yield hsound.conformant (Nat.zero_le _) hn hyield hlevel).trans ?_
      rw [← hsound.eq_ofExpr]
      exact State.run_holding_empty hbegins
    rw [subtree, hrun]
    rfl

theorem not_beginsWithBinaryOp {t : Token} {ts : List Token}
    (ht : t.kind = .endOfStatement ∨ t.kind = .endOfInput) : ¬ BeginsWithBinaryOp (t :: ts) := by
  rintro ⟨op, hop⟩
  rcases ht with ht | ht
  · exact op.kind_ne rfl (hop.symm.trans ht)
  · exact op.kind_ne rfl (hop.symm.trans ht)

theorem dropStatementMark_eq_cons_iff {ts z : List Token} {t : Token}
    (ht : t.kind = .endOfInput) :
    dropStatementMark ts = t :: z ↔
      ∃ mark, ts = mark ++ t :: z ∧
        (mark = [] ∨ ∃ m, mark = [m] ∧ m.kind = .endOfStatement) := by
  constructor
  · intro h
    cases ts with
    | nil => exact nomatch h
    | cons u us =>
        by_cases hu : u.kind = .endOfStatement
        · simp only [dropStatementMark, if_pos hu] at h
          exact ⟨[u], by rw [h]; rfl, Or.inr ⟨u, rfl, hu⟩⟩
        · simp only [dropStatementMark, if_neg hu] at h
          exact ⟨[], h, Or.inl rfl⟩
  · rintro ⟨mark, rfl, rfl | ⟨m, rfl, hm⟩⟩
    · have hne : t.kind ≠ .endOfStatement := by rw [ht]; decide
      simp only [List.nil_append, dropStatementMark, if_neg hne]
    · simp only [List.cons_append, List.nil_append, dropStatementMark, if_pos hm]

theorem parseWithin_of_subtree {p q : Parser} {tree : Subtree}
    (h : p.subtree limit = .ok (tree, q)) :
    p.parseWithin limit =
      match dropStatementMark q.rest with
      | [] => .error (.unexpectedToken q.finish)
      | t :: _ => if t.isEnd then .ok tree.expr else .error (.unexpectedToken t) := by
  rw [parseWithin, h]
  rfl

/-- A list is parsed to a tree exactly when it begins with a sentence that spells it. -/
theorem parseWithin_eq_ok_iff {p : Parser} {e : Expr} :
    p.parseWithin limit = .ok e ↔
      e.Conformant ∧ within limit e.height = true ∧ ∃ u z, p.rest = u ++ z ∧ IsSentence e u := by
  constructor
  · intro h
    cases hsub : p.subtree limit with
    | error err => simp only [parseWithin, hsub] at h; cases h
    | ok r =>
        obtain ⟨tree, q⟩ := r
        obtain ⟨-, hsound, -, w, hp, hw⟩ := subtree_eq_ok_iff.mp hsub
        rw [parseWithin_of_subtree hsub] at h
        split at h
        next => cases h
        next t z hdrop =>
          split at h
          next hend =>
            cases h
            have ht : t.kind = .endOfInput := by simpa [Token.isEnd] using hend
            obtain ⟨mark, hrest, hmark⟩ := (dropStatementMark_eq_cons_iff ht).mp hdrop
            refine ⟨hsound.conformant, hsound.height_eq ▸ hsound.within_height,
              w ++ mark ++ [t], z, ?_, w, mark, t, rfl, hw, hmark, ht⟩
            rw [hp, hrest]
            simp only [List.append_assoc, List.singleton_append]
          next => cases h
  · rintro ⟨he, hn, u, z, hp, w, mark, t, rfl, hw, hmark, ht⟩
    have hbegins : ¬ BeginsWithBinaryOp (mark ++ t :: z) := by
      rcases hmark with rfl | ⟨m, rfl, hm⟩
      · exact not_beginsWithBinaryOp (Or.inr ht)
      · exact not_beginsWithBinaryOp (Or.inl hm)
    have hsub : p.subtree limit = .ok (.ofExpr e, ⟨mark ++ t :: z, p.finish⟩) :=
      subtree_eq_ok_iff.mpr ⟨rfl, ⟨he, rfl, hn⟩, hbegins, w,
        by rw [hp]; simp only [List.append_assoc, List.singleton_append], hw⟩
    have hdrop : dropStatementMark (mark ++ t :: z) = t :: z :=
      (dropStatementMark_eq_cons_iff ht).mpr ⟨mark, rfl, hmark⟩
    have hend : t.isEnd = true := by simp [Token.isEnd, ht]
    rw [parseWithin_of_subtree hsub, hdrop]
    exact if_pos hend

/-- The parser accepts the language of expressions up to height 256, and builds the one tree that
the tokens spell. -/
theorem parsed_iff_spelled (ts : List Token) (e : Expr) :
    (∀ rest, (ofTokens ts).expression = .ok (e, ⟨rest, finishOf ts⟩) ↔
      e.Conformant ∧ e.height ≤ 256 ∧ (∃ w, ts = w ++ rest ∧ w.map Token.terminal = e.yield) ∧
        ¬ BeginsWithBinaryOp rest) ∧
    (LineCalc.parse ts = .ok e ↔
      e.Conformant ∧ e.height ≤ 256 ∧ ∃ w mark t z, ts = w ++ mark ++ [t] ++ z ∧
        w.map Token.terminal = e.yield ∧
        (mark = [] ∨ ∃ m, mark = [m] ∧ m.kind = .endOfStatement) ∧ t.kind = .endOfInput) := by
  constructor
  · intro rest
    constructor
    · intro h
      cases hsub : (ofTokens ts).subtree (some maxDepth) with
      | error err => simp only [expression, hsub] at h; exact nomatch h
      | ok r =>
          obtain ⟨tree, q⟩ := r
          simp only [expression, hsub] at h
          cases h
          obtain ⟨-, hsound, hbegins, w, hts, hw⟩ := subtree_eq_ok_iff.mp hsub
          have hheight : tree.expr.height ≤ maxDepth :=
            of_decide_eq_true (hsound.height_eq ▸ hsound.within_height)
          exact ⟨hsound.conformant, hheight, ⟨w, hts, hw⟩, hbegins⟩
    · rintro ⟨he, hheight, ⟨w, hts, hw⟩, hbegins⟩
      have hsub : (ofTokens ts).subtree (some maxDepth)
          = .ok (.ofExpr e, ⟨rest, finishOf ts⟩) :=
        subtree_eq_ok_iff.mpr ⟨rfl, ⟨he, rfl, decide_eq_true hheight⟩, hbegins, w, hts, hw⟩
      simp only [expression, hsub]
      rfl
  · have hparse : LineCalc.parse ts = .ok e ↔ _ := parseWithin_eq_ok_iff
    rw [hparse]
    refine and_congr_right fun _ => and_congr decide_eq_true_iff ?_
    constructor
    · rintro ⟨u, z, hts, w, mark, t, rfl, h⟩
      exact ⟨w, mark, t, z, hts, h⟩
    · rintro ⟨w, mark, t, z, hts, h⟩
      exact ⟨w ++ mark ++ [t], z, hts, w, mark, t, rfl, h⟩

end LineCalc.Parser
