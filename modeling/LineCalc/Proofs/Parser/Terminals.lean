/-
# `LineCalc.Proofs.Parser.Terminals` — the parser looks at terminals only

Of a token the parser looks at the terminal, and it keeps the token to blame it.  So two
lists with the same terminals are read alike: both are parsed to the same tree, or both
fail for the same reason, and the tokens that are blamed stand at the same index
(`parse_parallel`).

Two runs that read alike go side by side (`SideBySide`).  The relation starts from any relation
between tokens that keeps terminals, it is lifted to frames, stacks and states, and every
function of the parser takes what is related to what is related.
-/
import Mathlib.Data.List.Forall2
import LineCalc.Proofs.Parser.Run

namespace LineCalc

/-! ## Results side by side -/

/-- `SideBySide E A x y`: both results are errors that `E` relates, or both are values that `A`
relates. -/
inductive SideBySide {ε ε' α α' : Type} (E : ε → ε' → Prop) (A : α → α' → Prop) :
    Except ε α → Except ε' α' → Prop
  | error {e : ε} {e' : ε'} : E e e' → SideBySide E A (.error e) (.error e')
  | ok {a : α} {a' : α'} : A a a' → SideBySide E A (.ok a) (.ok a')

theorem SideBySide.bind {ε ε' α α' β β' : Type} {E : ε → ε' → Prop} {A : α → α' → Prop}
    {B : β → β' → Prop} {x : Except ε α} {y : Except ε' α'} {f : α → Except ε β}
    {g : α' → Except ε' β'} (h : SideBySide E A x y)
    (hfg : ∀ {a a'}, A a a' → SideBySide E B (f a) (g a')) :
    SideBySide E B (x >>= f) (y >>= g) := by
  cases h with
  | error he => exact .error he
  | ok ha => exact hfg ha

theorem SideBySide.mono {ε ε' α α' : Type} {E E' : ε → ε' → Prop} {A : α → α' → Prop}
    {x : Except ε α} {y : Except ε' α'} (hE : ∀ {e e'}, E e e' → E' e e')
    (h : SideBySide E A x y) : SideBySide E' A x y := by
  cases h with
  | error he => exact .error (hE he)
  | ok ha => exact .ok ha

/-- `e.Parallel R e'`: both errors have the same reason and blame tokens that `R` relates. -/
inductive ParseError.Parallel (R : Token → Token → Prop) : ParseError → ParseError → Prop
  | mismatchedBracket {t u : Token} : R t u →
      Parallel R (.mismatchedBracket t) (.mismatchedBracket u)
  | unexpectedToken {t u : Token} : R t u → Parallel R (.unexpectedToken t) (.unexpectedToken u)
  | tooDeep {t u : Token} : R t u → Parallel R (.tooDeep t) (.tooDeep u)

theorem ParseError.Parallel.mono {R R' : Token → Token → Prop} (hR : ∀ {t u}, R t u → R' t u)
    {e e' : ParseError} (h : e.Parallel R e') : e.Parallel R' e' := by
  cases h with
  | mismatchedBracket ht => exact .mismatchedBracket (hR ht)
  | unexpectedToken ht => exact .unexpectedToken (hR ht)
  | tooDeep ht => exact .tooDeep (hR ht)

theorem Literal.ofToken?_congr {t u : Token} (h : t.terminal = u.terminal) :
    Literal.ofToken? t = Literal.ofToken? u := by
  refine Option.ext fun l => ?_
  rw [ofToken?_eq_some_iff, ofToken?_eq_some_iff, h]

namespace Parser

variable {R : Token → Token → Prop} {limit : Option Nat} {level : Nat}

/-! ## Frames and states -/

/-- Both frames are open for the same node, and tokens that `R` relates opened them. -/
inductive Frame.Parallel (R : Token → Token → Prop) : Frame → Frame → Prop
  | group {t u : Token} : R t u → Parallel R (.group t) (.group u)
  | unary {op : UnaryOp} {t u : Token} : R t u → Parallel R (.unary op t) (.unary op u)
  | binary {left : Subtree} {op : BinaryOp} {t u : Token} : R t u →
      Parallel R (.binary left op t) (.binary left op u)

/-- The same frames are open, up to their tokens. -/
structure Stack.Parallel (R : Token → Token → Prop) (s s' : Stack) : Prop where
  frames : List.Forall₂ (Frame.Parallel R) s.frames s'.frames
  nesting_eq : s.nesting = s'.nesting

/-- The same expression is being read, up to the tokens of open frames. -/
inductive State.Parallel (R : Token → Token → Prop) : State → State → Prop
  | wanting {s s' : Stack} : s.Parallel R s' → Parallel R (.wanting s) (.wanting s')
  | holding {s s' : Stack} {right : Subtree} : s.Parallel R s' →
      Parallel R (.holding s right) (.holding s' right)

section
variable {f g : Frame} {s s' : Stack} {t u : Token}

theorem Frame.Parallel.demand_eq (h : f.Parallel R g) : f.demand = g.demand := by
  cases h <;> rfl

theorem Frame.Parallel.nests_eq (h : f.Parallel R g) : f.nests = g.nests := by
  cases h <;> rfl

theorem node_parallel (h : R t u) (e : Expr) (below : Nat) :
    SideBySide (ParseError.Parallel R) Eq (Subtree.node limit t e below)
      (Subtree.node limit u e below) := by
  unfold Subtree.node
  split
  · exact .ok rfl
  · exact .error (.tooDeep h)

theorem Frame.Parallel.close (h : f.Parallel R g) (right : Subtree) :
    SideBySide (ParseError.Parallel R) Eq (f.close limit right) (g.close limit right) := by
  cases h with
  | group ht => exact node_parallel ht _ _
  | unary ht => exact node_parallel ht _ _
  | binary ht => exact node_parallel ht _ _

theorem Stack.Parallel.fold (h : s.Parallel R s') (hl : level < operandLevel) (right : Subtree) :
    SideBySide (ParseError.Parallel R) (fun p q => p.1.Parallel R q.1 ∧ p.2 = q.2)
      (s.fold limit level right) (s'.fold limit level right) := by
  obtain ⟨fs, n⟩ := s
  obtain ⟨gs, m⟩ := s'
  obtain ⟨hframes, rfl⟩ : List.Forall₂ (Frame.Parallel R) fs gs ∧ n = m := ⟨h.1, h.2⟩
  induction hframes generalizing n right with
  | nil => exact .ok ⟨⟨.nil, rfl⟩, rfl⟩
  | @cons f g fs gs hfg hfs ih =>
      by_cases hf : level < f.demand
      · rw [Stack.fold_close hf, Stack.fold_close (hfg.demand_eq ▸ hf), hfg.nests_eq]
        refine (hfg.close right).bind fun hnode => ?_
        subst hnode
        exact ih _ _ ⟨hfs, rfl⟩
      · have hf' : ¬ level < g.demand := hfg.demand_eq ▸ hf
        rw [Stack.fold_stop (Nat.not_lt.mp hf) hl, Stack.fold_stop (Nat.not_lt.mp hf') hl]
        exact .ok ⟨⟨.cons hfg hfs, rfl⟩, rfl⟩

theorem Stack.Parallel.descend (h : s.Parallel R s') (ht : R t u) (hfg : f.Parallel R g) :
    SideBySide (ParseError.Parallel R) (Stack.Parallel R) (s.descend limit t f)
      (s'.descend limit u g) := by
  unfold Stack.descend
  rw [h.nesting_eq]
  split
  · exact .ok ⟨.cons hfg h.frames, rfl⟩
  · exact .error (.tooDeep ht)

namespace State

section
variable (hR : ∀ {t u}, R t u → t.terminal = u.terminal)
include hR

theorem begin_parallel (hs : s.Parallel R s') (ht : R t u) :
    SideBySide (ParseError.Parallel R) (Option.Rel (State.Parallel R)) (begin limit s t)
      (begin limit s' u) := by
  have hkind : t.kind = u.kind := congrArg Terminal.kind (hR ht)
  unfold begin
  rw [Literal.ofToken?_congr (hR ht), hkind]
  split
  · exact .ok (.some (.holding hs))
  · split
    · exact (hs.descend ht (.unary ht)).bind fun hs => .ok (.some (.wanting hs))
    · split
      · exact (hs.descend ht (.group ht)).bind fun hs => .ok (.some (.wanting hs))
      · exact .ok .none

omit hR in
theorem closeGroup_parallel (hs : s.Parallel R s') (right : Subtree) :
    SideBySide (ParseError.Parallel R) (Option.Rel (State.Parallel R)) (closeGroup limit s right)
      (closeGroup limit s' right) := by
  refine (hs.fold (by decide) right).bind fun {p q} hpq => ?_
  obtain ⟨⟨fs, n⟩, inner⟩ := p
  obtain ⟨⟨gs, m⟩, inner'⟩ := q
  obtain ⟨⟨hframes, hn⟩, rfl⟩ := hpq
  cases hframes with
  | nil => exact .ok .none
  | cons hfg hfs =>
      cases hfg with
      | group ht =>
          refine ((Frame.Parallel.group ht).close inner).bind fun hnode => ?_
          subst hnode
          exact .ok (.some (.holding ⟨hfs, congrArg (· - 1) hn⟩))
      | unary ht => exact .ok .none
      | binary ht => exact .ok .none

theorem extend_parallel (hs : s.Parallel R s') (ht : R t u) (right : Subtree) :
    SideBySide (ParseError.Parallel R) (Option.Rel (State.Parallel R)) (extend limit s right t)
      (extend limit s' right u) := by
  have hkind : t.kind = u.kind := congrArg Terminal.kind (hR ht)
  unfold extend
  rw [hkind]
  split
  next op _ =>
    refine (hs.fold op.level_lt right).bind fun {p q} hpq => ?_
    obtain ⟨s₁, left⟩ := p
    obtain ⟨s₂, left'⟩ := q
    obtain ⟨hstack, rfl⟩ := hpq
    exact .ok (.some (.wanting ⟨.cons (.binary ht) hstack.frames, hstack.nesting_eq⟩))
  next =>
    split
    · exact closeGroup_parallel hs right
    · exact .ok .none

theorem advance_parallel {σ σ' : State} (hs : σ.Parallel R σ') (ht : R t u) :
    SideBySide (ParseError.Parallel R) (Option.Rel (State.Parallel R)) (σ.advance limit t)
      (σ'.advance limit u) := by
  cases hs with
  | wanting hs => exact begin_parallel hR hs ht
  | holding hs => exact extend_parallel hR hs ht _

omit hR in
theorem conclude_parallel {σ σ' : State} (hs : σ.Parallel R σ') (ht : R t u) :
    SideBySide (ParseError.Parallel R) Eq (σ.conclude limit t) (σ'.conclude limit u) := by
  cases hs with
  | wanting hs => exact .error (.unexpectedToken ht)
  | @holding s s' right hs =>
      refine (hs.fold (by decide) right).bind fun {p q} hpq => ?_
      obtain ⟨⟨fs, n⟩, inner⟩ := p
      obtain ⟨⟨gs, m⟩, inner'⟩ := q
      obtain ⟨⟨hframes, -⟩, rfl⟩ := hpq
      cases hframes with
      | nil => exact .ok rfl
      | cons _ _ => exact .error (.mismatchedBracket ht)

theorem run_parallel {σ σ' : State} (hs : σ.Parallel R σ') {finish finish' : Token}
    (hfinish : R finish finish') {ts us : List Token} (hts : List.Forall₂ R ts us) :
    SideBySide (ParseError.Parallel R) (fun p q => p.1 = q.1 ∧ List.Forall₂ R p.2 q.2)
      (run limit finish σ ts) (run limit finish' σ' us) := by
  induction hts generalizing σ σ' with
  | nil => exact (conclude_parallel hs hfinish).bind fun htree => .ok ⟨htree, .nil⟩
  | cons ht hts ih =>
      refine (advance_parallel hR hs ht).bind fun hnext => ?_
      cases hnext with
      | some hs => exact ih hs
      | none => exact (conclude_parallel hs ht).bind fun htree => .ok ⟨htree, .cons ht hts⟩

end

end State

end

/-! ## Token lists -/

theorem dropStatementMark_parallel (hR : ∀ {t u}, R t u → t.terminal = u.terminal)
    {ts us : List Token} (hts : List.Forall₂ R ts us) :
    List.Forall₂ R (dropStatementMark ts) (dropStatementMark us) := by
  cases hts with
  | nil => exact .nil
  | @cons t u ts us ht hts =>
      have hkind : t.kind = u.kind := congrArg Terminal.kind (hR ht)
      simp only [dropStatementMark, hkind]
      split
      · exact hts
      · exact .cons ht hts

theorem subtree_parallel (hR : ∀ {t u}, R t u → t.terminal = u.terminal) {p q : Parser}
    (hrest : List.Forall₂ R p.rest q.rest) (hfinish : R p.finish q.finish) :
    SideBySide (ParseError.Parallel R)
      (fun x y => x.1 = y.1 ∧ List.Forall₂ R x.2.rest y.2.rest ∧ R x.2.finish y.2.finish)
      (p.subtree limit) (q.subtree limit) := by
  have hinitial : State.initial.Parallel R .initial := .wanting ⟨.nil, rfl⟩
  refine (State.run_parallel hR hinitial hfinish hrest).bind fun hread => ?_
  exact .ok ⟨hread.1, hread.2, hfinish⟩

theorem parseWithin_parallel (hR : ∀ {t u}, R t u → t.terminal = u.terminal) {p q : Parser}
    (hrest : List.Forall₂ R p.rest q.rest) (hfinish : R p.finish q.finish) :
    SideBySide (ParseError.Parallel R) Eq (p.parseWithin limit) (q.parseWithin limit) := by
  refine (subtree_parallel hR hrest hfinish).bind fun {x y} hxy => ?_
  obtain ⟨tree, p'⟩ := x
  obtain ⟨tree', q'⟩ := y
  obtain ⟨rfl, hrest', hfinish'⟩ := hxy
  have hdropped := dropStatementMark_parallel hR hrest'
  dsimp only
  generalize dropStatementMark p'.rest = ts at hdropped ⊢
  generalize dropStatementMark q'.rest = us at hdropped ⊢
  cases hdropped with
  | nil => exact .error (.unexpectedToken hfinish')
  | @cons t u ts us ht hts =>
      have hkind : t.kind = u.kind := congrArg Terminal.kind (hR ht)
      have hend : t.isEnd = u.isEnd := congrArg (· == _) hkind
      dsimp only
      rw [hend]
      cases u.isEnd with
      | true => exact .ok rfl
      | false => exact .error (.unexpectedToken ht)

/-! ## The same index -/

def AtSameIndex (ts us : List Token) (t u : Token) : Prop :=
  ∃ i : Nat, ts[i]? = some t ∧ us[i]? = some u

variable {ts us : List Token}

theorem AtSameIndex.terminal_eq (h : ts.map Token.terminal = us.map Token.terminal) {t u : Token}
    (htu : AtSameIndex ts us t u) : t.terminal = u.terminal := by
  obtain ⟨i, ht, hu⟩ := htu
  have hi : (ts.map Token.terminal)[i]? = (us.map Token.terminal)[i]? := by rw [h]
  rw [List.getElem?_map, List.getElem?_map, ht, hu] at hi
  exact Option.some.inj hi

theorem forall₂_atSameIndex (h : ts.length = us.length) :
    List.Forall₂ (AtSameIndex ts us) ts us := by
  refine List.forall₂_iff_get.mpr ⟨h, fun i hi hi' => ⟨i, ?_, ?_⟩⟩
  · exact List.getElem?_eq_getElem hi
  · exact List.getElem?_eq_getElem hi'

theorem rel_of_atSameIndex {R : Token → Token → Prop} (h : List.Forall₂ R ts us) {t u : Token}
    (htu : AtSameIndex ts us t u) : R t u := by
  obtain ⟨i, ht, hu⟩ := htu
  obtain ⟨hi, rfl⟩ := List.getElem?_eq_some_iff.mp ht
  obtain ⟨hi', rfl⟩ := List.getElem?_eq_some_iff.mp hu
  exact (List.forall₂_iff_get.mp h).2 i hi hi'

theorem finishOf_of_getLast? {last : Token} (h : ts.getLast? = some last)
    (hlast : last.kind = .endOfInput) : finishOf ts = last := by
  have hend : last.isEnd = true := by simp [Token.isEnd, hlast]
  simp only [finishOf, h, hend]
  rfl

theorem getLast?_atSameIndex (h : ts.length = us.length) {t u : Token}
    (ht : ts.getLast? = some t) (hu : us.getLast? = some u) : AtSameIndex ts us t u := by
  rw [List.getLast?_eq_getElem?] at ht hu
  exact ⟨_, ht, h ▸ hu⟩

/-- Lists with the same terminals that end with an end marker are parsed to the same tree, or fail
for the same reason at the same index. -/
theorem parse_parallel (h : ts.map Token.terminal = us.map Token.terminal) {t u : Token}
    (ht : ts.getLast? = some t) (hu : us.getLast? = some u) (hend : t.kind = .endOfInput) :
    SideBySide (ParseError.Parallel (AtSameIndex ts us)) Eq (LineCalc.parse ts)
      (LineCalc.parse us) := by
  have hlength : ts.length = us.length := by
    rw [← List.length_map Token.terminal, h, List.length_map]
  have hlast := getLast?_atSameIndex hlength ht hu
  have hkind : t.kind = u.kind := congrArg Terminal.kind (hlast.terminal_eq h)
  refine parseWithin_parallel (AtSameIndex.terminal_eq h) (forall₂_atSameIndex hlength) ?_
  show AtSameIndex ts us (finishOf ts) (finishOf us)
  rw [finishOf_of_getLast? ht hend, finishOf_of_getLast? hu (hkind ▸ hend)]
  exact hlast

end Parser

end LineCalc
