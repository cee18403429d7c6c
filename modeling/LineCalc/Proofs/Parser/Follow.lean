/-
# `LineCalc.Proofs.Parser.Follow` — the parser follows the rules

What a rule does, said once for all rules (`Rule.follows`).  A rule never ends in a breach.  It
passes no cursor whose counters are above the limit, unless they were so at its beginning.  If
it gives a tree, the depth is what it was and the height is that of the tree, and if a stack is
as deep as the cursor, then a run of the parser from that stack comes to the same: to the
tree in hand, or to the same error.

The induction is on the tokens at hand, and for as many of them on the rules, from the inner
ones to the outer ones, since a rule may call the next one before it takes a token.
-/
import LineCalc.Proofs.Parser.Walk
import LineCalc.Proofs.Parser.Complete

namespace LineCalc.Parser

/-! ## What the guards let through -/

def Level.index : Level → Nat
  | equality => 0
  | comparison => 1
  | term => 2
  | factor => 3

def Rule.level : Rule → Nat
  | chain level => level.index
  | unary | primary => operandLevel

theorem Level.level_operand (level : Level) : level.operand.level = level.index + 1 := by
  cases level <;> rfl

theorem Level.joins_iff {level : Level} {k : Token.Kind} :
    level.joins k = true ↔ ∃ op : BinaryOp, k = op.kind ∧ op.level = level.index := by
  have hmap : level.joins k = true ↔
      (BinaryOp.ofKind? k).map BinaryOp.level = some level.index := by
    cases level <;> cases k <;> simp [joins, BinaryOp.ofKind?, BinaryOp.level, index]
  rw [hmap, Option.map_eq_some_iff]
  exact exists_congr fun op => and_congr_left fun _ => BinaryOp.ofKind?_eq_some_iff

theorem opensUnary_iff {k : Token.Kind} : opensUnary k = true ↔ ∃ op : UnaryOp, k = op.kind := by
  have hsome : opensUnary k = true ↔ (UnaryOp.ofKind? k).isSome = true := by
    cases k <;> simp [opensUnary, UnaryOp.ofKind?]
  rw [hsome, Option.isSome_iff_exists]
  exact exists_congr fun op => UnaryOp.ofKind?_eq_some_iff

theorem opensPrimary_iff {t : Token} :
    opensPrimary t.kind = true ↔ (∃ l, Literal.ofToken? t = some l) ∨ t.kind = .leftParen := by
  obtain ⟨k, lexeme, place⟩ := t
  cases k <;> simp [opensPrimary, Literal.ofToken?]

namespace Cursor

theorem take?_cons {wanted : Token.Kind → Bool} {t : Token} (h : wanted t.kind = true)
    (ts : List Token) (finish : Token) (depth height : Nat) :
    take? wanted ⟨t :: ts, finish, depth, height⟩
      = some (t, ⟨⟨ts, finish, depth, height⟩, Nat.lt_succ_self _⟩) := if_pos h

theorem take?_eq_none {wanted : Token.Kind → Bool} {c : Cursor}
    (h : ∀ t ∈ c.rest.head?, wanted t.kind = false) : c.take? wanted = none := by
  obtain ⟨rest, finish, depth, height⟩ := c
  cases rest with
  | nil => rfl
  | cons t ts => exact if_neg (Bool.eq_false_iff.mp (h t rfl))

theorem wanted_or_not (wanted : Token.Kind → Bool) (rest : List Token) :
    (∃ t ts, rest = t :: ts ∧ wanted t.kind = true) ∨
      ∀ t ∈ rest.head?, wanted t.kind = false := by
  cases rest with
  | nil => exact Or.inr fun t ht => nomatch ht
  | cons t ts =>
      cases hwanted : wanted t.kind with
      | true => exact Or.inl ⟨t, ts, rfl, hwanted⟩
      | false =>
          refine Or.inr fun u hu => ?_
          cases hu
          exact hwanted

/-- The counters of a cursor are at most `bound`. -/
structure Within (bound : Nat) (c : Cursor) : Prop where
  depth_le : c.depth ≤ bound
  height_le : c.height ≤ bound

def run (c : Cursor) (s : State) : Except ParseError (Subtree × List Token) :=
  State.run (some maxDepth) c.finish s c.rest

end Cursor

/-! ## What the steps of a rule do -/

section
variable {bound n : Nat} {t : Token} {E : Stop ParseError Breach → Prop}

theorem within_iff {m : Nat} : within (some maxDepth) m = true ↔ m ≤ maxDepth :=
  decide_eq_true_iff

theorem unaryOp_keeps (h : opensUnary t.kind = true) :
    (unaryOp t).Keeps (Cursor.Within bound) E fun op => t.kind = op.kind := by
  obtain ⟨op, hop⟩ := opensUnary_iff.mp h
  rw [unaryOp, UnaryOp.ofKind?_eq_some_iff.mpr hop]
  exact Walk.keeps_pure hop

theorem binaryOp_keeps {level : Level} (h : level.joins t.kind = true) :
    (binaryOp t).Keeps (Cursor.Within bound) E fun op =>
      t.kind = op.kind ∧ op.level = level.index := by
  obtain ⟨op, hop, hlevel⟩ := Level.joins_iff.mp h
  rw [binaryOp, BinaryOp.ofKind?_eq_some_iff.mpr hop]
  exact Walk.keeps_pure ⟨hop, hlevel⟩

namespace Cursor.Short

theorem go_keeps {c : Short n} (h : c.1.Within bound) :
    c.go.Keeps (Within bound) E fun d => d = c :=
  (Walk.keeps_note h trivial (Q := fun _ => True)).bind fun _ _ => Walk.keeps_pure rfl

theorem descend_keeps {c : Short n} (h : c.1.Within bound) (hbound : maxDepth ≤ bound)
    (hE : maxDepth < c.1.depth + 1 → E (.error (.tooDeep t))) :
    (c.descend t).Keeps (Within bound) E fun d =>
      d = ⟨{ c.1 with depth := c.1.depth + 1 }, c.2⟩ ∧ c.1.depth + 1 ≤ maxDepth := by
  unfold descend
  split
  next hdeep => exact Walk.keeps_stop (hE (Nat.lt_succ_of_le hdeep))
  next hdeep =>
    have hle : c.1.depth + 1 ≤ maxDepth := Nat.not_le.mp hdeep
    refine (go_keeps (c := ⟨{ c.1 with depth := c.1.depth + 1 }, c.2⟩)
      ⟨Nat.le_trans hle hbound, h.height_le⟩).mono (fun _ he => he) ?_
    rintro d rfl
    exact ⟨rfl, hle⟩

theorem ascend_keeps {c : Short n} (h : c.1.Within bound) (hdepth : 0 < c.1.depth) :
    c.ascend.Keeps (Within bound) E fun d =>
      d = ⟨{ c.1 with depth := c.1.depth - 1 }, c.2⟩ := by
  rw [ascend, if_neg (Nat.pos_iff_ne_zero.mp hdepth)]
  exact go_keeps ⟨Nat.le_trans (Nat.sub_le _ _) h.depth_le, h.height_le⟩

theorem fold_keeps {c : Short n} {e : Expr} {other : Nat} (h : c.1.Within bound)
    (hbound : maxDepth ≤ bound)
    (hE : maxDepth < max c.1.height other + 1 → E (.error (.tooDeep t))) :
    (c.fold t e other).Keeps (Within bound) E fun x =>
      x = (e, ⟨{ c.1 with height := max c.1.height other + 1 }, c.2⟩) ∧
        max c.1.height other + 1 ≤ maxDepth := by
  unfold fold
  dsimp only
  split
  next hdeep => exact Walk.keeps_stop (hE hdeep)
  next hdeep =>
    have hle := Nat.not_lt.mp hdeep
    refine (go_keeps (c := ⟨{ c.1 with height := max c.1.height other + 1 }, c.2⟩)
      ⟨h.depth_le, Nat.le_trans hle hbound⟩).bind ?_
    rintro d rfl
    exact Walk.keeps_pure ⟨rfl, hle⟩

end Cursor.Short

end

/-! ## Runs of the parser beside the rules -/

/-- The tokens `rest` begin with no operator of level `k` or tighter. -/
def Ends (k : Nat) (rest : List Token) : Prop :=
  ∀ t ∈ rest.head?, ∀ op : BinaryOp, t.kind = op.kind → op.level < k

theorem ends_operandLevel (rest : List Token) : Ends operandLevel rest :=
  fun _ _ op _ => op.level_lt

theorem Ends.not_beginsWithBinaryOp {rest : List Token} (h : Ends 0 rest) :
    ¬ BeginsWithBinaryOp rest := by
  cases rest with
  | nil => exact id
  | cons t ts =>
      rintro ⟨op, hop⟩
      exact Nat.not_lt_zero _ (h t rfl op hop)

theorem Ends.closingLevel_le {k : Nat} {rest : List Token} (h : Ends (k + 1) rest) :
    State.closingLevel rest ≤ k := by
  cases rest with
  | nil => exact Nat.zero_le k
  | cons t ts =>
      cases hop : BinaryOp.ofKind? t.kind with
      | none =>
          simp only [State.closingLevel, hop]
          exact Nat.zero_le k
      | some op =>
          have hkind := BinaryOp.ofKind?_eq_some_iff.mp hop
          rw [State.closingLevel_of_op hkind]
          exact Nat.le_of_lt_succ (h t rfl op hkind)

theorem Ends.of_not_joins {level : Level} {rest : List Token} (h : Ends level.operand.level rest)
    (hjoins : ∀ t ∈ rest.head?, level.joins t.kind = false) : Ends level.index rest := by
  intro t ht op hop
  have hlt := h t ht op hop
  rw [level.level_operand] at hlt
  refine Nat.lt_of_le_of_ne (Nat.le_of_lt_succ hlt) fun heq => ?_
  have hnot := hjoins t ht
  rw [Level.joins_iff.mpr ⟨op, hop, heq⟩] at hnot
  exact nomatch hnot

abbrev Outcome := Except ParseError (Subtree × List Token)

/-- `Arrives x k s c e d`: from the cursor `c` a rule has come to the tree `e` and the cursor `d`,
before which no operator of level `k` or tighter stands, and the outcome `x` is that of a run
with the tree in hand above the stack `s`. -/
structure Arrives (x : Outcome) (k : Nat) (s : Stack) (c : Cursor) (e : Expr) (d : Cursor) :
    Prop where
  depth_eq : d.depth = c.depth
  finish_eq : d.finish = c.finish
  height_eq : d.height = e.height
  height_le : d.height ≤ maxDepth
  ends : Ends k d.rest
  run_eq : x = d.run (.holding s ⟨e, d.height⟩)

/-- `r.Begins rest`: before the tokens `rest` the grammar comes to the rule `r`, as far as that
depends on them.  What begins with a unary operator is left to the rule for these. -/
def Rule.Begins (r : Rule) (rest : List Token) : Prop :=
  r = .primary → ∀ t ∈ rest.head?, opensUnary t.kind = false

theorem Rule.begins_of_ne {r : Rule} (h : r ≠ .primary) (rest : List Token) : r.Begins rest :=
  fun hr => absurd hr h

theorem Level.operand_ne_primary (level : Level) : level.operand ≠ .primary := by
  cases level <;> decide

/-- What the rule does before `n` tokens, beside a run of the parser. -/
def Rule.Follows (r : Rule) (n : Nat) : Prop :=
  ∀ ⦃c : Cursor⦄ ⦃s : Stack⦄ ⦃bound : Nat⦄, c.rest.length = n → r.Begins c.rest →
    maxDepth ≤ bound → c.Within bound → s.nesting = c.depth → demand s.frames ≤ r.level →
      (r.read c).Keeps (Cursor.Within bound) (FailsAs (c.run (.wanting s))) fun x =>
        Arrives (c.run (.wanting s)) r.level s c x.1 x.2.1

section
variable {n : Nat}

/-! ### What is no operator -/

theorem run_unexpected {c : Cursor} {s : Stack}
    (hprimary : ∀ t ∈ c.rest.head?, opensPrimary t.kind = false)
    (hunary : ∀ t ∈ c.rest.head?, opensUnary t.kind = false) :
    c.run (.wanting s) = .error (.unexpectedToken c.current) := by
  obtain ⟨rest, finish, depth, height⟩ := c
  cases rest with
  | nil => exact State.run_nil _
  | cons t ts =>
      have hnot : ¬ ((∃ l, Literal.ofToken? t = some l) ∨ t.kind = .leftParen) := by
        rw [← opensPrimary_iff, hprimary t rfl]
        exact Bool.false_ne_true
      obtain ⟨hliteral, hbracket⟩ := not_or.mp hnot
      have hliteral : Literal.ofToken? t = none := by
        cases hl : Literal.ofToken? t with
        | none => rfl
        | some l => exact absurd ⟨l, hl⟩ hliteral
      have hop : UnaryOp.ofKind? t.kind = none := by
        cases hop : UnaryOp.ofKind? t.kind with
        | none => rfl
        | some op =>
            have hopens := opensUnary_iff.mpr ⟨op, UnaryOp.ofKind?_eq_some_iff.mp hop⟩
            exact absurd hopens (Bool.eq_false_iff.mp (hunary t rfl))
      have hstuck : (State.wanting s).advance (some maxDepth) t = .ok none := by
        simp only [State.advance, State.begin, hliteral, hop, if_neg hbracket]
      exact State.run_cons_of_stuck hstuck

theorem run_mismatched {c : Cursor} {t : Token} {fs : List Frame} {m : Nat} {right : Subtree}
    (hends : Ends 0 c.rest) (hclose : ∀ u ∈ c.rest.head?, (u.kind == .rightParen) = false) :
    c.run (.holding ⟨.group t :: fs, m⟩ right) = .error (.mismatchedBracket c.current) := by
  have hfold : Stack.fold (some maxDepth) 0 ⟨.group t :: fs, m⟩ right
      = .ok (⟨.group t :: fs, m⟩, right) := Stack.fold_stop (Nat.le_refl 0) (by decide)
  obtain ⟨rest, finish, depth, height⟩ := c
  cases rest with
  | nil =>
      refine (State.run_nil _).trans ?_
      simp only [State.conclude, hfold]
      rfl
  | cons u us =>
      have hop : BinaryOp.ofKind? u.kind = none := ofKind?_eq_none hends.not_beginsWithBinaryOp
      have hbracket : u.kind ≠ .rightParen := beq_eq_false_iff_ne.mp (hclose u rfl)
      have hstuck : (State.holding ⟨.group t :: fs, m⟩ right).advance (some maxDepth) u
          = .ok none := by
        simp only [State.advance, State.extend, hop, if_neg hbracket]
      refine (State.run_cons_of_stuck hstuck).trans ?_
      simp only [State.conclude, hfold]
      rfl

/-- Giving the tree of a frame is closing the frame, and too deep for the one if for the other. -/
theorem fold_arrives {x : Outcome} {k bound other : Nat} {s : Stack} {c : Cursor} {f : Frame}
    {d : Cursor.Short n} {e : Expr} (hbound : maxDepth ≤ bound) (hd : d.1.Within bound)
    (hdepth : d.1.depth = c.depth) (hfinish : d.1.finish = c.finish) (hends : Ends k d.1.rest)
    (hbelow : max d.1.height other = f.below d.1.height)
    (hnode : f.below d.1.height + 1 = (f.node e).height)
    (hx : x = (f.close (some maxDepth) ⟨e, d.1.height⟩).bind fun node =>
      d.1.run (.holding s node)) :
    (d.fold f.token (f.node e) other).Keeps (Cursor.Within bound) (FailsAs x) fun y =>
      Arrives x k s c y.1 y.2.1 := by
  rw [Frame.close_eq, Subtree.node, ← hbelow] at hx
  rw [← hbelow] at hnode
  refine (Cursor.Short.fold_keeps hd hbound ?_).mono (fun _ h => h) ?_
  · intro hdeep
    rw [if_neg (fun h => Nat.not_lt.mpr (within_iff.mp h) hdeep)] at hx
    exact hx
  · rintro y ⟨rfl, hle⟩
    rw [if_pos (within_iff.mpr hle)] at hx
    exact ⟨hdepth, hfinish, hnode, hle, hends, hx⟩

theorem advance_tooDeep {s : Stack} {t : Token} (hdeep : maxDepth < s.nesting + 1)
    (h : t.kind = .leftParen ∨ ∃ op : UnaryOp, t.kind = op.kind) :
    (State.wanting s).advance (some maxDepth) t = .error (.tooDeep t) := by
  have hnot : ¬ within (some maxDepth) (s.nesting + 1) = true :=
    fun h => Nat.not_lt.mpr (within_iff.mp h) hdeep
  rcases h with hk | ⟨op, hk⟩
  · have hl : Literal.ofToken? t = none := by unfold Literal.ofToken?; rw [hk]
    have hop : UnaryOp.ofKind? t.kind = none := by rw [hk]; rfl
    simp only [State.advance, State.begin, hl, hop, if_pos hk, Stack.descend, if_neg hnot]
    rfl
  · have hl : Literal.ofToken? t = none := by
      unfold Literal.ofToken?; rw [hk]; cases op <;> rfl
    simp only [State.advance, State.begin, hl, UnaryOp.ofKind?_eq_some_iff.mpr hk, Stack.descend,
      if_neg hnot]
    rfl

theorem run_closeGroup {u t : Token} {us : List Token} {finish : Token} {fs : List Frame}
    {m : Nat} {right : Subtree} (hu : u.kind = .rightParen) :
    State.run (some maxDepth) finish (.holding ⟨.group t :: fs, m⟩ right) (u :: us)
      = ((Frame.group t).close (some maxDepth) right).bind fun node =>
          State.run (some maxDepth) finish (.holding ⟨fs, m - 1⟩ node) us := by
  have hfold : Stack.fold (some maxDepth) 0 ⟨.group t :: fs, m⟩ right
      = .ok (⟨.group t :: fs, m⟩, right) := Stack.fold_stop (Nat.le_refl 0) (by decide)
  cases hclose : (Frame.group t).close (some maxDepth) right with
  | ok node => exact State.run_cons_of_move (.close hu hfold hclose)
  | error e =>
      have hop : BinaryOp.ofKind? u.kind = none := by rw [hu]; rfl
      refine State.run_cons_of_error ?_
      simp only [State.advance, State.extend, hop, if_pos hu, State.closeGroup, hfold, bind,
        Except.bind, hclose]

theorem close_arrives {bound : Nat} {s : Stack} {c : Cursor} {d : Cursor.Short n} {t : Token}
    {e : Expr} (hbound : maxDepth ≤ bound) (hd : d.1.Within bound) (hdepth : d.1.depth = c.depth)
    (hfinish : d.1.finish = c.finish) (hheight : d.1.height = e.height) (hends : Ends 0 d.1.rest) :
    let x := d.1.run (.holding ⟨.group t :: s.frames, s.nesting + 1⟩ ⟨e, d.1.height⟩)
    (d.close t e).Keeps (Cursor.Within bound) (FailsAs x) fun y =>
      Arrives x operandLevel s c y.1 y.2.1 := by
  intro x
  rw [Cursor.Short.close]
  rcases Cursor.wanted_or_not (· == .rightParen) d.1.rest with ⟨u, us, hrest, hclose⟩ | hhead
  · obtain ⟨⟨rest, finish, depth, height⟩, hshort⟩ := d
    obtain rfl : rest = u :: us := hrest
    have hclosed : Cursor.Within bound ⟨us, finish, depth, height⟩ := ⟨hd.depth_le, hd.height_le⟩
    dsimp only
    rw [Cursor.take?_cons hclose]
    refine (Cursor.Short.go_keeps hclosed).bind ?_
    rintro _ rfl
    refine fold_arrives (f := .group t) hbound hclosed hdepth hfinish (ends_operandLevel _)
      (Nat.max_zero _) ?_ ?_
    · exact congrArg (· + 1) hheight
    · exact run_closeGroup (beq_iff_eq.mp hclose)
  · rw [Cursor.take?_eq_none hhead]
    exact Walk.keeps_stop (run_mismatched hends hhead)

/-- An operand is read between a descent and the ascent after it, above the frame that the descent
opens.  What follows the ascent goes on at the depth of the beginning. -/
theorem nested_keeps {α : Type} {Q : α → Prop} {r : Rule} {bound : Nat} {x : Outcome} {s : Stack}
    {f : Frame} {t : Token} {c : Cursor.Short n} {k : Expr → Cursor.Short n → Step α}
    (hfollows : r.Follows c.1.rest.length) (hr : r ≠ .primary) (hbound : maxDepth ≤ bound)
    (hc : c.1.Within bound) (hs : s.nesting = c.1.depth) (hdemand : f.demand ≤ r.level)
    (hdeep : maxDepth < c.1.depth + 1 → x = .error (.tooDeep t))
    (hmove : c.1.depth + 1 ≤ maxDepth →
      x = c.1.run (.wanting ⟨f :: s.frames, s.nesting + 1⟩))
    (hk : ∀ (e : Expr) (d : Cursor.Short n), d.1.Within bound → d.1.depth = c.1.depth →
      d.1.finish = c.1.finish → d.1.height = e.height → Ends r.level d.1.rest →
      x = d.1.run (.holding ⟨f :: s.frames, s.nesting + 1⟩ ⟨e, d.1.height⟩) →
        (k e d).Keeps (Cursor.Within bound) (FailsAs x) Q) :
    Walk.Keeps (Cursor.Within bound) (FailsAs x) Q (do
      let d ← c.descend t
      let (e, d') ← r.read d.1
      let d ← (d.trans d').ascend
      k e d) := by
  refine (Cursor.Short.descend_keeps hc hbound hdeep).bind ?_
  rintro _ ⟨rfl, hle⟩
  obtain rfl := hmove hle
  refine (hfollows (c := { c.1 with depth := c.1.depth + 1 })
    (s := ⟨f :: s.frames, s.nesting + 1⟩) rfl (Rule.begins_of_ne hr _) hbound
    ⟨Nat.le_trans hle hbound, hc.height_le⟩ (congrArg (· + 1) hs) hdemand).bind ?_
  rintro ⟨e, d, hshort⟩ ⟨hdepth, hfinish, hheight, hle', hends, hrun⟩
  have hend : d.Within bound := ⟨hdepth ▸ Nat.le_trans hle hbound, Nat.le_trans hle' hbound⟩
  have hlower : d.depth - 1 = c.1.depth := by rw [hdepth]; rfl
  refine (Cursor.Short.ascend_keeps (c := ⟨d, Nat.lt_trans hshort c.2⟩) hend
    (hdepth ▸ Nat.succ_pos _)).bind ?_
  rintro _ rfl
  exact hk e ⟨{ d with depth := d.depth - 1 }, _⟩ ⟨hlower ▸ hc.depth_le, hend.height_le⟩ hlower
    hfinish hheight hends hrun

/-! ### The rules -/

theorem primary_follows (ih : ∀ m < n, ∀ r : Rule, r.Follows m) : Rule.primary.Follows n := by
  intro c s bound hn hbegins hbound hc hs _
  rw [Rule.read]
  rcases Cursor.wanted_or_not opensPrimary c.rest with ⟨t, ts, hrest, hopens⟩ | hhead
  · obtain ⟨rest, finish, depth, height⟩ := c
    obtain rfl : rest = t :: ts := hrest
    obtain rfl : s.nesting = depth := hs
    have hd : Cursor.Within bound ⟨ts, finish, s.nesting, height⟩ := ⟨hc.depth_le, hc.height_le⟩
    rw [Cursor.take?_cons hopens]
    refine (Cursor.Short.go_keeps hd).bind ?_
    rintro _ rfl
    cases hl : Literal.ofToken? t with
    | some l =>
        refine (Cursor.Short.go_keeps (c := ⟨⟨ts, finish, s.nesting, 0⟩, Nat.lt_succ_self _⟩)
          ⟨hc.depth_le, Nat.zero_le _⟩).bind ?_
        rintro _ rfl
        refine Walk.keeps_pure ⟨rfl, rfl, rfl, Nat.zero_le _, ends_operandLevel _, ?_⟩
        exact State.run_cons_of_move (.literal (Literal.ofToken?_eq_some_iff.mp hl))
    | none =>
        have hk : t.kind = .leftParen := by
          rcases opensPrimary_iff.mp hopens with ⟨l, hl'⟩ | hk
          · rw [hl] at hl'
            cases hl'
          · exact hk
        simp only [if_pos hk]
        refine nested_keeps (s := s) (f := .group t) (k := fun e d => d.close t e)
          (ih ts.length (hn ▸ Nat.lt_succ_self _) _) (by decide) hbound hd rfl (Nat.le_refl 0)
          ?_ ?_ ?_
        · intro hdeep
          exact State.run_cons_of_error (advance_tooDeep hdeep (Or.inl hk))
        · intro hle
          exact State.run_cons_of_move (.group hk (within_iff.mpr hle))
        · rintro e d hend hdepth hfinish hheight hends hrun
          rw [hrun]
          exact close_arrives hbound hend hdepth hfinish hheight hends
  · rw [Cursor.take?_eq_none hhead]
    exact Walk.keeps_stop (run_unexpected hhead (hbegins rfl))

theorem unary_follows (ih : ∀ m < n, ∀ r : Rule, r.Follows m) (hprimary : Rule.primary.Follows n) :
    Rule.unary.Follows n := by
  intro c s bound hn _ hbound hc hs hdemand
  rw [Rule.read]
  rcases Cursor.wanted_or_not opensUnary c.rest with ⟨t, ts, hrest, hopens⟩ | hhead
  · obtain ⟨rest, finish, depth, height⟩ := c
    obtain rfl : rest = t :: ts := hrest
    obtain rfl : s.nesting = depth := hs
    have hd : Cursor.Within bound ⟨ts, finish, s.nesting, height⟩ := ⟨hc.depth_le, hc.height_le⟩
    rw [Cursor.take?_cons hopens]
    refine (Cursor.Short.go_keeps hd).bind ?_
    rintro _ rfl
    refine (unaryOp_keeps hopens).bind fun op hop => ?_
    refine nested_keeps (s := s) (f := .unary op t) (k := fun e d => d.fold t (.unary op e) 0)
      (ih ts.length (hn ▸ Nat.lt_succ_self _) _) (by decide) hbound hd rfl (Nat.le_refl _)
      ?_ ?_ ?_
    · intro hdeep
      exact State.run_cons_of_error (advance_tooDeep hdeep (Or.inr ⟨op, hop⟩))
    · intro hle
      exact State.run_cons_of_move (.unary hop (within_iff.mpr hle))
    · rintro e d hend hdepth hfinish hheight hends hrun
      rw [hrun]
      refine fold_arrives (f := .unary op t) hbound hend hdepth hfinish hends (Nat.max_zero _) ?_ ?_
      · exact congrArg (· + 1) hheight
      · exact State.run_close (State.closingLevel_lt _)
  · rw [Cursor.take?_eq_none hhead]
    exact hprimary hn (fun _ => hhead) hbound hc hs hdemand

theorem Arrives.trans {x : Outcome} {k k' : Nat} {s : Stack} {c c' d : Cursor} {e e' : Expr}
    (h : Arrives x k s c e c') (h' : Arrives (c'.run (.holding s ⟨e, c'.height⟩)) k' s c' e' d) :
    Arrives x k' s c e' d :=
  ⟨h'.depth_eq.trans h.depth_eq, h'.finish_eq.trans h.finish_eq, h'.height_eq, h'.height_le,
    h'.ends, h.run_eq.trans h'.run_eq⟩

/-- After an operand, a chain goes on as a run with the operand in hand. -/
theorem readMore_arrives {level : Level} {bound : Nat} {c : Cursor.Short n} {left : Expr}
    {s : Stack} (ih : ∀ m < n, level.operand.Follows m) (hbound : maxDepth ≤ bound)
    (hc : c.1.Within bound) (hs : s.nesting = c.1.depth) (hdemand : demand s.frames ≤ level.index)
    (hleft : c.1.height = left.height) (hle : c.1.height ≤ maxDepth)
    (hends : Ends level.operand.level c.1.rest) :
    (level.readMore left c).Keeps (Cursor.Within bound)
      (FailsAs (c.1.run (.holding s ⟨left, c.1.height⟩))) fun y =>
        Arrives (c.1.run (.holding s ⟨left, c.1.height⟩)) level.index s c.1 y.1 y.2.1 := by
  induction hm : c.1.rest.length using Nat.strongRecOn generalizing c left with
  | ind m ihm =>
    rw [Level.readMore]
    rcases Cursor.wanted_or_not level.joins c.1.rest with ⟨t, ts, hrest, hjoins⟩ | hhead
    · obtain ⟨⟨rest, finish, depth, height⟩, hshort⟩ := c
      obtain rfl : rest = t :: ts := hrest
      obtain rfl : s.nesting = depth := hs
      obtain rfl : height = left.height := hleft
      have hts : ts.length < n := Nat.lt_of_succ_lt hshort
      have hd : Cursor.Within bound ⟨ts, finish, s.nesting, left.height⟩ :=
        ⟨hc.depth_le, hc.height_le⟩
      dsimp only
      rw [Cursor.take?_cons hjoins]
      refine (Cursor.Short.go_keeps hd).bind ?_
      rintro _ rfl
      refine (binaryOp_keeps hjoins).bind ?_
      rintro op ⟨hop, hlevel⟩
      -- the right operand is read under the frame of the left one
      have hmove : Cursor.run ⟨t :: ts, finish, s.nesting, left.height⟩
            (.holding s ⟨left, left.height⟩)
          = Cursor.run ⟨ts, finish, s.nesting, left.height⟩
              (.wanting ⟨.binary ⟨left, left.height⟩ op t :: s.frames, s.nesting⟩) :=
        State.run_cons_of_move (.binary hop (Stack.fold_stop (hlevel ▸ hdemand) op.level_lt))
      rw [hmove]
      refine (ih ts.length hts (c := ⟨ts, finish, s.nesting, left.height⟩)
        (s := ⟨.binary ⟨left, left.height⟩ op t :: s.frames, s.nesting⟩) rfl
        (Rule.begins_of_ne level.operand_ne_primary _) hbound hd rfl ?_).bind ?_
      · rw [level.level_operand, ← hlevel]
        exact Nat.le_refl _
      rintro ⟨right, d, hshort'⟩ ⟨hdepth, hfinish, hheight, hle', hends', hrun⟩
      dsimp only at hdepth hfinish hheight hle' hends' hrun
      rw [hrun]
      refine (fold_arrives (f := .binary ⟨left, left.height⟩ op t) (s := s)
        (c := ⟨t :: ts, finish, s.nesting, left.height⟩) hbound
        ⟨hdepth ▸ hd.depth_le, Nat.le_trans hle' hbound⟩ hdepth hfinish hends'
        (Nat.max_comm _ _) ?_ ?_).bind ?_
      · show max left.height d.height + 1 = max left.height right.height + 1
        rw [hheight]
      · refine State.run_close (f := .binary ⟨left, left.height⟩ op t) ?_
        rw [level.level_operand, ← hlevel] at hends'
        exact Nat.lt_succ_of_le hends'.closingLevel_le
      rintro ⟨e, d', hd'⟩ harrives
      rw [harrives.run_eq]
      refine (ihm d'.rest.length (hm ▸ hd') (c := ⟨d', Nat.lt_trans hd' hshort⟩)
        ⟨harrives.depth_eq ▸ hc.depth_le, Nat.le_trans harrives.height_le hbound⟩
        harrives.depth_eq.symm harrives.height_eq harrives.height_le harrives.ends rfl).mono
        (fun _ h => h) ?_
      rintro ⟨e', d''⟩ hmore
      rw [← harrives.run_eq]
      exact harrives.trans hmore
    · rw [Cursor.take?_eq_none hhead]
      exact Walk.keeps_pure ⟨rfl, rfl, hleft, hle, hends.of_not_joins hhead, rfl⟩

theorem chain_follows (level : Level) (ih : ∀ m < n, level.operand.Follows m)
    (hoperand : level.operand.Follows n) : (Rule.chain level).Follows n := by
  intro c s bound hn _ hbound hc hs hdemand
  rw [Rule.read]
  have hdemand' : demand s.frames ≤ level.operand.level := by
    rw [level.level_operand]
    exact Nat.le_succ_of_le hdemand
  refine (hoperand hn (Rule.begins_of_ne level.operand_ne_primary _) hbound hc hs hdemand').bind ?_
  rintro ⟨left, d⟩ harrives
  subst hn
  rw [harrives.run_eq]
  refine (readMore_arrives ih hbound
    ⟨harrives.depth_eq ▸ hc.depth_le, Nat.le_trans harrives.height_le hbound⟩
    (hs.trans harrives.depth_eq.symm) hdemand harrives.height_eq harrives.height_le
    harrives.ends).mono (fun _ h => h) ?_
  rintro ⟨e, d'⟩ hmore
  rw [← harrives.run_eq]
  exact harrives.trans hmore

/-- Every rule does what a run of the parser does, and no rule ends in a breach. -/
theorem Rule.follows (r : Rule) (n : Nat) : r.Follows n := by
  induction n using Nat.strongRecOn generalizing r with
  | ind n ih =>
    -- before equally many tokens, a rule is called by those that come after it here
    have hprimary := primary_follows ih
    have hunary := unary_follows ih hprimary
    have hfactor := chain_follows .factor (fun m hm => ih m hm _) hunary
    have hterm := chain_follows .term (fun m hm => ih m hm _) hfactor
    have hcomparison := chain_follows .comparison (fun m hm => ih m hm _) hterm
    have hequality := chain_follows .equality (fun m hm => ih m hm _) hcomparison
    rcases r with level | _ | _
    · cases level with
      | equality => exact hequality
      | comparison => exact hcomparison
      | term => exact hterm
      | factor => exact hfactor
    · exact hunary
    · exact hprimary

end

end LineCalc.Parser
