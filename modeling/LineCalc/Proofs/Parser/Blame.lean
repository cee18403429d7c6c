/-
# `LineCalc.Proofs.Parser.Blame` — which token is blamed

An error that is no matter of depth points at the first token that cannot continue.  The
parser rejects a list in three places: where an operand is wanted, where a grouping is
still open, and after a whole expression.  `Rejects` says where, and what was consumed
until then; what comes after the blamed token plays no part in it.

What was consumed can always be completed to a sentence: with a literal if an operand is
wanted, a bracket for every open grouping and the end marker.  The blamed token cannot be
consumed too, since the unbounded parser finds every sentence and would reject this one at
the same token.
-/
import LineCalc.Proofs.Parser.Limit

namespace LineCalc.Parser

variable {limit : Option Nat} {finish : Token} {k bound : Nat} {ts : List Token}

/-! ## What is consumed -/

def State.taken (limit : Option Nat) : State → List Token → Nat
  | _, [] => 0
  | s, t :: ts =>
    match s.advance limit t with
    | .ok (some s') => taken limit s' ts + 1
    | .ok none | .error _ => 0

/-- How many tokens the parser has consumed when it comes to look for the end marker, or when it
rejects the list before that. -/
def consumed (ts : List Token) : Nat :=
  match (ofTokens ts).expression with
  | .ok (_, q) => ts.length - (dropStatementMark q.rest).length
  | .error _ => State.taken (some maxDepth) .initial ts

theorem State.Leads.taken_eq {s s' : State} {w rest : List Token} (h : State.Leads limit s w s')
    (hstuck : s'.Stuck limit rest) : s.taken limit (w ++ rest) = w.length := by
  induction h with
  | refl s =>
      cases rest with
      | nil => rfl
      | cons t rest =>
          have ha : s.advance limit t = .ok none := hstuck
          simp only [List.nil_append, taken, ha]
          rfl
  | step hm _ ih =>
      simp only [List.cons_append, taken, hm.advance_eq, ih hstuck, List.length_cons]

/-! ## Where a list is rejected -/

/-- `Rejects limit finish w rest e`: having consumed `w`, the parser rejects the list before the
tokens `rest` with the error `e`. -/
inductive Rejects (limit : Option Nat) (finish : Token) :
    List Token → List Token → ParseError → Prop
  | operand {w rest : List Token} {s : Stack} :
      State.Leads limit .initial w (.wanting s) → (State.wanting s).Stuck limit rest →
      Rejects limit finish w rest (.unexpectedToken (rest.headD finish))
  | bracket {w rest : List Token} {s : Stack} {right inner : Subtree} {u : Token}
      {fs : List Frame} {n : Nat} :
      State.Leads limit .initial w (.holding s right) →
      (State.holding s right).Stuck limit rest →
      s.fold limit 0 right = .ok (⟨.group u :: fs, n⟩, inner) →
      Rejects limit finish w rest (.mismatchedBracket (rest.headD finish))
  | leftover {w mark rest : List Token} {s : Stack} {right tree : Subtree} {n : Nat} :
      State.Leads limit .initial w (.holding s right) →
      (State.holding s right).Stuck limit (mark ++ rest) →
      s.fold limit 0 right = .ok (⟨[], n⟩, tree) →
      (mark = [] ∨ ∃ m, mark = [m] ∧ m.kind = .endOfStatement) →
      dropStatementMark (mark ++ rest) = rest → (∀ t ∈ rest.head?, t.isEnd = false) →
      Rejects limit finish (w ++ mark) rest (.unexpectedToken (rest.headD finish))

theorem eq_group_of_demand {f : Frame} (hf : f.demand ≤ 0) : ∃ u, f = .group u := by
  cases f with
  | group u => exact ⟨u, rfl⟩
  | unary op t => exact absurd hf (Nat.not_succ_le_zero _)
  | binary left op t => exact absurd hf (Nat.not_succ_le_zero _)

theorem exists_mark (ts : List Token) :
    ∃ mark, ts = mark ++ dropStatementMark ts ∧
      (mark = [] ∨ ∃ m, mark = [m] ∧ m.kind = .endOfStatement) := by
  cases ts with
  | nil => exact ⟨[], rfl, Or.inl rfl⟩
  | cons t ts =>
      by_cases ht : t.kind = .endOfStatement
      · exact ⟨[t], by simp only [dropStatementMark, if_pos ht]; rfl, Or.inr ⟨t, rfl, ht⟩⟩
      · exact ⟨[], by simp only [dropStatementMark, if_neg ht]; rfl, Or.inl rfl⟩

theorem State.run_of_leads {s : State} {w rest : List Token}
    (h : State.Leads limit .initial w s) (hstuck : s.Stuck limit rest) :
    State.run limit finish .initial (w ++ rest)
      = (s.conclude limit (rest.headD finish)).map fun tree => (tree, rest) := by
  rw [h.run_append]
  cases rest with
  | nil => exact run_nil s
  | cons t rest => exact run_cons_of_stuck hstuck

theorem subtree_of_leads {p : Parser} {w rest : List Token} {s : Stack} {right tree : Subtree}
    {n : Nat} (hp : p.rest = w ++ rest) (hw : State.Leads limit .initial w (.holding s right))
    (hstuck : (State.holding s right).Stuck limit rest)
    (hfold : s.fold limit 0 right = .ok (⟨[], n⟩, tree)) :
    p.subtree limit = .ok (tree, ⟨rest, p.finish⟩) := by
  rw [subtree, hp, State.run_of_leads hw hstuck, State.conclude, hfold]
  rfl

theorem Rejects.parseWithin_eq {p : Parser} {w rest : List Token} {e : ParseError}
    (h : Rejects limit p.finish w rest e) (hp : p.rest = w ++ rest) :
    p.parseWithin limit = .error e := by
  cases h with
  | operand hw hstuck =>
      simp only [parseWithin, subtree, hp, State.run_of_leads hw hstuck]
      rfl
  | bracket hw hstuck hfold =>
      simp only [parseWithin, subtree, hp, State.run_of_leads hw hstuck, State.conclude, hfold]
      rfl
  | leftover hw hstuck hfold hmark hdrop hend =>
      rw [List.append_assoc] at hp
      rw [parseWithin_of_subtree (subtree_of_leads hp hw hstuck hfold), hdrop]
      cases rest with
      | nil => rfl
      | cons t rest =>
          have ht : t.isEnd = false := hend t rfl
          simp only [ht]
          rfl

theorem rejects_leftover {p : Parser} {w rest : List Token} {s : Stack} {right tree : Subtree}
    {n : Nat} {e : ParseError} (hp : p.rest = w ++ rest)
    (hw : State.Leads limit .initial w (.holding s right))
    (hstuck : (State.holding s right).Stuck limit rest)
    (hfold : s.fold limit 0 right = .ok (⟨[], n⟩, tree)) (h : p.parseWithin limit = .error e) :
    ∃ w rest, p.rest = w ++ rest ∧ Rejects limit p.finish w rest e := by
  obtain ⟨mark, hrest, hmark⟩ := exists_mark rest
  rw [parseWithin_of_subtree (subtree_of_leads hp hw hstuck hfold)] at h
  generalize hdrop : dropStatementMark rest = rest' at hrest h
  subst hrest
  rw [← List.append_assoc] at hp
  cases rest' with
  | nil =>
      cases h
      refine ⟨_, _, hp, .leftover hw hstuck hfold hmark hdrop ?_⟩
      rintro _ ⟨⟩
  | cons t rest' =>
      cases ht : t.isEnd with
      | true =>
          simp only [ht] at h
          cases h
      | false =>
          simp only [ht] at h
          cases h
          refine ⟨_, _, hp, .leftover hw hstuck hfold hmark hdrop ?_⟩
          rintro _ ⟨⟩
          exact ht

/-- Every error that is no matter of depth is a rejection. -/
theorem rejects_of_error {p : Parser} {e : ParseError} (h : p.parseWithin limit = .error e)
    (hdeep : ∀ t, e ≠ .tooDeep t) :
    ∃ w rest, p.rest = w ++ rest ∧ Rejects limit p.finish w rest e := by
  rcases State.run_ends limit p.finish .initial p.rest with
    ⟨w, rest, s, hp, hw, hstuck, hrun⟩ | ⟨w, t, rest, s, e', -, -, herr, hrun⟩
  · cases s with
    | wanting s =>
        simp only [parseWithin, subtree, hrun, State.conclude] at h
        cases h
        exact ⟨w, rest, hp, .operand hw hstuck⟩
    | holding s right =>
        cases hfold : s.fold limit 0 right with
        | error e' =>
            simp only [parseWithin, subtree, hrun, State.conclude, hfold] at h
            cases h
            obtain ⟨f, -, he⟩ := fold_eq_error (by decide) hfold
            exact absurd he (hdeep _)
        | ok r =>
            obtain ⟨⟨frames, n⟩, tree⟩ := r
            cases frames with
            | nil => exact rejects_leftover hp hw hstuck hfold h
            | cons f fs =>
                have hd := (Held.fold (by decide) (hw.reads.mono (Nat.zero_le _)) hfold).2
                obtain ⟨u, rfl⟩ := eq_group_of_demand hd
                simp only [parseWithin, subtree, hrun, State.conclude, hfold] at h
                cases h
                exact ⟨w, rest, hp, .bracket hw hstuck hfold⟩
  · rw [parseWithin, subtree, hrun] at h
    cases h
    rcases State.advance_eq_error herr with ⟨he, -⟩ | ⟨f, -, he⟩
    · exact absurd he (hdeep _)
    · exact absurd he (hdeep _)

theorem Rejects.consumed_eq {w rest : List Token} {e : ParseError}
    (h : Rejects (some maxDepth) (finishOf ts) w rest e) (hts : ts = w ++ rest) :
    consumed ts = w.length := by
  cases h with
  | operand hw hstuck =>
      have hsub : (ofTokens ts).expression
          = .error (.unexpectedToken (rest.headD (finishOf ts))) := by
        rw [expression, subtree, show (ofTokens ts).rest = w ++ rest from hts,
          State.run_of_leads hw hstuck]
        rfl
      simp only [consumed, hsub]
      rw [hts, hw.taken_eq hstuck]
  | bracket hw hstuck hfold =>
      have hsub : (ofTokens ts).expression
          = .error (.mismatchedBracket (rest.headD (finishOf ts))) := by
        rw [expression, subtree, show (ofTokens ts).rest = w ++ rest from hts,
          State.run_of_leads hw hstuck, State.conclude, hfold]
        rfl
      simp only [consumed, hsub]
      rw [hts, hw.taken_eq hstuck]
  | @leftover w mark _ _ _ tree _ hw hstuck hfold _ hdrop _ =>
      have hp : (ofTokens ts).rest = w ++ (mark ++ rest) := by rw [← List.append_assoc]; exact hts
      have hexpr : (ofTokens ts).expression = .ok (tree.expr, ⟨mark ++ rest, finishOf ts⟩) := by
        rw [expression, subtree_of_leads hp hw hstuck hfold]
        rfl
      simp only [consumed, hexpr, hdrop]
      rw [hts, List.length_append, Nat.add_sub_cancel]

/-! ## The blamed token decides -/

/-- Neither what follows the blamed token nor the end that stands for a missing one matters. -/
theorem Rejects.retarget {t : Token} {w rest : List Token} {e : ParseError}
    (h : Rejects limit finish w (t :: rest) e) (finish' : Token) (rest' : List Token) :
    Rejects limit finish' w (t :: rest') e := by
  cases h with
  | operand hw hstuck => exact .operand hw hstuck
  | bracket hw hstuck hfold => exact .bracket hw hstuck hfold
  | @leftover w mark _ _ _ _ _ hw hstuck hfold hmark hdrop hend =>
      -- the mark is consumed, so whether there is one is settled before the blamed token
      suffices hdrop' : dropStatementMark (mark ++ t :: rest') = t :: rest' by
        refine .leftover hw ?_ hfold hmark hdrop' hend
        rcases hmark with rfl | ⟨m, rfl, -⟩ <;> exact hstuck
      rcases hmark with rfl | ⟨m, rfl, hm⟩
      · by_cases ht : t.kind = .endOfStatement
        · simp only [List.nil_append, dropStatementMark, if_pos ht] at hdrop
          exact absurd (congrArg List.length hdrop) (Nat.ne_of_lt (Nat.lt_succ_self _))
        · simp only [List.nil_append, dropStatementMark, if_neg ht]
      · simp only [List.cons_append, List.nil_append, dropStatementMark, if_pos hm]

theorem Agrees.eq_ok {α : Type} {R : Prop} {x y : Except ParseError α} {a : α}
    (h : Agrees R x y) (hx : x = .ok a) : y = .ok a := by
  rcases h with heq | ⟨-, t, ht⟩
  · exact heq.symm.trans hx
  · rw [hx] at ht
    exact nomatch ht

/-- What a bounded run takes, the unbounded run takes alike. -/
theorem State.Leads.unbounded {s₀ s : State} {w rest : List Token}
    (h : State.Leads (some bound) s₀ w s) (hp : State.Passes ts s₀ (w ++ rest)) :
    State.Leads none s₀ w s ∧ State.Passes ts s rest := by
  induction h with
  | refl s => exact ⟨.refl s, hp⟩
  | step hm _ ih =>
      obtain ⟨v, hv⟩ := hp.reads
      have ha := (advance_agrees bound hp hv).eq_ok hm.advance_eq
      obtain ⟨hw, hp'⟩ := ih (hp.take ha)
      exact ⟨.step (.of_advance ha) hw, hp'⟩

theorem State.Stuck.unbounded {s : State} {rest : List Token}
    (h : s.Stuck (some bound) rest) (hp : State.Passes ts s rest) : s.Stuck none rest := by
  cases rest with
  | nil => trivial
  | cons t rest =>
      obtain ⟨v, hv⟩ := hp.reads
      exact (advance_agrees bound hp hv).eq_ok h

theorem fold_unbounded {s : Stack} {right : Subtree} {rest : List Token} {r : Stack × Subtree}
    (hstuck : (State.holding s right).Stuck (some bound) rest)
    (hp : State.Passes ts (.holding s right) rest)
    (hfold : s.fold (some bound) 0 right = .ok r) : s.fold none 0 right = .ok r := by
  have hlevel := closingLevel_eq_zero hstuck.not_beginsWithBinaryOp
  obtain ⟨v, hv⟩ := hp.reads
  have hagrees := fold_agrees bound hp hv
  rw [hlevel] at hagrees
  exact hagrees.eq_ok hfold

theorem Rejects.unbounded {w rest : List Token} {e : ParseError}
    (h : Rejects (some bound) finish w rest e) : Rejects none finish w rest e := by
  cases h with
  | operand hw hstuck =>
      obtain ⟨hw', hp⟩ := hw.unbounded .start
      exact .operand hw' (hstuck.unbounded hp)
  | bracket hw hstuck hfold =>
      obtain ⟨hw', hp⟩ := hw.unbounded .start
      exact .bracket hw' (hstuck.unbounded hp) (fold_unbounded hstuck hp hfold)
  | leftover hw hstuck hfold hmark hdrop hend =>
      obtain ⟨hw', hp⟩ := hw.unbounded .start
      exact .leftover hw' (hstuck.unbounded hp) (fold_unbounded hstuck hp hfold) hmark hdrop hend

theorem Rejects.not_sentence {t : Token} {w rest : List Token} {e : ParseError}
    (h : Rejects (some bound) finish w (t :: rest) e) (more : List Token) :
    ¬ Sentence (w ++ t :: more) := by
  rintro ⟨e', he', hsentence⟩
  -- the unbounded parser would accept the sentence, and yet it rejects it where this one does
  have hok : (ofTokens (w ++ t :: more)).parseWithin none = .ok e' :=
    parseWithin_eq_ok_iff.mpr ⟨he', rfl, _, [], (List.append_nil _).symm, hsentence⟩
  have herr := Rejects.parseWithin_eq (p := ofTokens (w ++ t :: more))
    (h.unbounded.retarget _ more) rfl
  rw [hok] at herr
  exact nomatch herr

/-! ## What was consumed can be completed -/

theorem exists_tree {fs : List Frame} (hfs : WellNested none fs) {e : Expr}
    (he : e.Conformant) (hd : demand fs ≤ e.level) :
    ∃ tree : Expr, tree.Conformant ∧
      tree.yield = terminals fs ++ e.yield ++ fs.flatMap Frame.closer := by
  induction hfs generalizing e with
  | nil => exact ⟨e, he, (List.append_nil _).symm⟩
  | @cons f fs hf hlevel _ ih =>
      obtain ⟨tree, htree, hyield⟩ := ih (Frame.conformant_node hf he hd)
        (by rw [Frame.level_node]; exact hlevel)
      refine ⟨tree, htree, ?_⟩
      rw [hyield, Frame.yield_node]
      simp only [terminals, List.flatMap_cons, List.append_assoc]

theorem exists_closing_tokens (fs : List Frame) :
    ∃ more : List Token, more.map Token.terminal = fs.flatMap Frame.closer := by
  induction fs with
  | nil => exact ⟨[], rfl⟩
  | cons f fs ih =>
      obtain ⟨more, hmore⟩ := ih
      cases f with
      | unary _ _ | binary _ _ _ => exact ⟨more, hmore⟩
      | group _ =>
          refine ⟨⟨.rightParen, ")", .start⟩ :: more, ?_⟩
          rw [List.map_cons, hmore]
          rfl

/-- Frames and an operand that they admit are what some sentence begins with. -/
theorem sentence_of_frames {fs : List Frame} (hfs : WellNested none fs) {e : Expr}
    (he : e.Conformant) (hd : demand fs ≤ e.level) {w : List Token}
    (hw : w.map Token.terminal = terminals fs ++ e.yield) : ∃ more, Sentence (w ++ more) := by
  obtain ⟨tree, htree, hyield⟩ := exists_tree hfs he hd
  obtain ⟨more, hmore⟩ := exists_closing_tokens fs
  refine ⟨more ++ [Token.endAt .start], tree, htree, w ++ more, [], Token.endAt .start, ?_, ?_,
    Or.inl rfl, rfl⟩
  · simp only [List.append_assoc, List.append_nil]
  · rw [List.map_append, hw, hmore, hyield]

theorem Rejects.exists_sentence {w rest : List Token} {e : ParseError}
    (h : Rejects none finish w rest e) : ∃ more, Sentence (w ++ more) := by
  cases h with
  | operand hw hstuck =>
      obtain ⟨hs, hspells⟩ := hw.reads
      let zero : Token := ⟨.integer, "0", .start⟩
      obtain ⟨more, hmore⟩ := sentence_of_frames (e := .literal (.integer "0")) (w := w ++ [zero])
        hs.nested trivial (demand_le _) (by rw [List.map_append, hspells]; rfl)
      exact ⟨zero :: more, by rwa [List.append_assoc] at hmore⟩
  | bracket hw hstuck hfold =>
      have hheld := hw.reads
      exact sentence_of_frames (Held.stack hheld).nested (Held.operand hheld).conformant
        (Held.demand_le hheld) (Held.spells hheld).symm
  | @leftover w mark _ _ _ tree _ hw hstuck hfold hmark hdrop hend =>
      obtain ⟨hheld, -⟩ := Held.fold (by decide) (hw.reads.mono (Nat.zero_le _)) hfold
      exact ⟨[Token.endAt .start], tree.expr, hheld.operand.conformant, w, mark,
        Token.endAt .start, rfl, hheld.spells.symm, hmark, rfl⟩

/-! ## Which error it is -/

theorem fold_closers {s s' : Stack} {right right' : Subtree} (hk : k < operandLevel)
    (h : s.fold limit k right = .ok (s', right')) :
    s'.frames.flatMap Frame.closer = s.frames.flatMap Frame.closer :=
  (Stack.fold_invariant
    (P := fun s'' _ => s''.frames.flatMap Frame.closer = s.frames.flatMap Frame.closer) hk
    (fun hf hp _ => by
      rw [List.flatMap_cons, Frame.closer_eq_nil hf] at hp
      exact hp)
    rfl h).1

namespace State

def isHolding : State → Bool
  | wanting _ => false
  | holding _ _ => true

/-- `Tallies s w`: the tokens `w` end with an operand exactly if one is in hand, and they leave one
bracket unclosed for every open grouping. -/
def Tallies (s : State) (w : List Token) : Prop :=
  (w.getLast?.any fun t => t.kind.endsOperand) = s.isHolding ∧
    unclosed w = (s.frames.flatMap Frame.closer).length

theorem Move.tallies {s s' : State} {t : Token} {w : List Token} (hm : Move limit s t s')
    (h : s.Tallies w) : s'.Tallies (w ++ [t]) := by
  have hlast : ((w ++ [t]).getLast?.any fun t => t.kind.endsOperand) = t.kind.endsOperand := by
    rw [List.getLast?_concat]
    rfl
  have hunclosed : unclosed (w ++ [t]) = unclosedAfter (unclosed w) t := by
    rw [unclosed, List.foldl_append]
    rfl
  obtain ⟨-, hcount⟩ := h
  rw [Tallies, hlast, hunclosed, hcount]
  cases hm with
  | @literal _ _ l ht =>
      have ht : t.kind = l.terminal.kind := congrArg Terminal.kind ht
      rw [unclosedAfter, ht]
      cases l <;> exact ⟨rfl, rfl⟩
  | @unary _ _ op ht _ =>
      rw [unclosedAfter, ht]
      cases op <;> exact ⟨rfl, rfl⟩
  | group ht _ =>
      rw [unclosedAfter, ht]
      refine ⟨rfl, ?_⟩
      simp only [frames, List.flatMap_cons, Frame.closer, List.length_append, List.length_singleton]
      exact Nat.add_comm _ _
  | @binary _ _ _ _ _ op ht hfold =>
      have hclosers := fold_closers op.level_lt hfold
      simp only [frames, List.flatMap_cons, Frame.closer, List.nil_append, hclosers]
      rw [unclosedAfter, ht]
      cases op with
      | relate r => cases r <;> exact ⟨rfl, rfl⟩
      | compute a => cases a <;> exact ⟨rfl, rfl⟩
      | rem => exact ⟨rfl, rfl⟩
  | close ht hfold _ =>
      have hclosers := fold_closers (by decide) hfold
      rw [unclosedAfter, ht]
      refine ⟨rfl, ?_⟩
      simp only [frames, ← hclosers, List.flatMap_cons, Frame.closer, List.length_append,
        List.length_singleton, Nat.add_sub_cancel_left]

theorem Leads.tallies {s : State} {w : List Token} (h : Leads limit .initial w s) :
    s.Tallies w :=
  h.invariant (P := Tallies) (v := []) (fun hm hp => hm.tallies hp) ⟨rfl, rfl⟩

theorem Move.kind_ne {s s' : State} {t : Token} (hm : Move limit s t s') :
    t.kind ≠ .endOfInput := by
  cases hm with
  | @literal _ _ l ht =>
      rw [show t.kind = l.terminal.kind from congrArg Terminal.kind ht]
      cases l <;> exact nofun
  | @unary _ _ op ht _ => rw [ht]; exact op.kind_ne rfl
  | group ht _ => rw [ht]; exact nofun
  | @binary _ _ _ _ _ op ht _ => rw [ht]; exact op.kind_ne rfl
  | close ht _ _ => rw [ht]; exact nofun

theorem Leads.kind_ne {s s' : State} {w : List Token} (h : Leads limit s w s') :
    ∀ t ∈ w, t.kind ≠ .endOfInput := by
  induction h with
  | refl => exact fun _ ht => nomatch ht
  | step hm _ ih =>
      intro t ht
      rcases List.mem_cons.mp ht with rfl | ht
      · exact hm.kind_ne
      · exact ih t ht

end State

theorem Rejects.kind_ne {w rest : List Token} {e : ParseError}
    (h : Rejects limit finish w rest e) : ∀ t ∈ w, t.kind ≠ .endOfInput := by
  cases h with
  | operand hw _ => exact hw.kind_ne
  | bracket hw _ _ => exact hw.kind_ne
  | leftover hw _ _ hmark _ _ =>
      intro t ht
      rcases List.mem_append.mp ht with ht | ht
      · exact hw.kind_ne t ht
      · rcases hmark with rfl | ⟨m, rfl, hm⟩
        · exact nomatch ht
        · rw [List.mem_singleton.mp ht, hm]
          exact nofun

/-- A bracket is missing exactly where an operand just ended inside an open grouping. -/
theorem Rejects.mismatchedBracket_iff {w rest : List Token} {e : ParseError}
    (h : Rejects limit finish w rest e) :
    (∃ t, e = .mismatchedBracket t) ↔
      (w.getLast?.any fun t => t.kind.endsOperand) = true ∧ 0 < unclosed w := by
  cases h with
  | operand hw _ =>
      obtain ⟨hlast, -⟩ := hw.tallies
      constructor
      · rintro ⟨t, ht⟩
        exact nomatch ht
      · rintro ⟨hends, -⟩
        rw [hlast] at hends
        exact nomatch hends
  | bracket hw _ hfold =>
      obtain ⟨hlast, hcount⟩ := hw.tallies
      refine ⟨fun _ => ⟨hlast, ?_⟩, fun _ => ⟨_, rfl⟩⟩
      rw [hcount, State.frames, ← fold_closers (by decide) hfold]
      exact Nat.succ_pos _
  | leftover hw _ hfold hmark _ _ =>
      obtain ⟨-, hcount⟩ := hw.tallies
      constructor
      · rintro ⟨t, ht⟩
        exact nomatch ht
      · rintro ⟨hends, hopen⟩
        rcases hmark with rfl | ⟨m, rfl, hm⟩
        · rw [List.append_nil, hcount, State.frames, ← fold_closers (by decide) hfold] at hopen
          exact absurd hopen (Nat.lt_irrefl 0)
        · rw [List.getLast?_concat, Option.any_some, hm] at hends
          exact nomatch hends

theorem Rejects.blamed {w rest : List Token} {e : ParseError} {t : Token}
    (h : Rejects limit finish w rest e) (he : e = .unexpectedToken t ∨ e = .mismatchedBracket t) :
    t = rest.headD finish := by
  cases h with
  | operand _ _ | leftover _ _ _ _ _ _ =>
      rcases he with he | he
      · exact (ParseError.unexpectedToken.inj he).symm
      · exact nomatch he
  | bracket _ _ _ =>
      rcases he with he | he
      · exact nomatch he
      · exact (ParseError.mismatchedBracket.inj he).symm

theorem eq_append_cons {w us : List Token} {u : Token}
    (h : us.take (w.length + 1) = w ++ [u]) : us = w ++ u :: us.drop (w.length + 1) :=
  calc us = us.take (w.length + 1) ++ us.drop (w.length + 1) := (List.take_append_drop _ _).symm
    _ = w ++ u :: us.drop (w.length + 1) := by
        rw [h, List.append_assoc]
        rfl

theorem finishOf_eq (h : ∀ t ∈ ts, t.kind ≠ .endOfInput) : finishOf ts = Token.endAt .start := by
  unfold finishOf
  split
  next t ht =>
    have hne : t.isEnd = false := by
      simpa [Token.isEnd] using h t (List.mem_of_getLast? ht)
    simp only [hne]
    rfl
  next => rfl

/-- An error that is no matter of depth points at the first token that cannot continue the ones
before it. -/
theorem error_blames_first_impossible (ts : List Token) (t : Token)
    (h : LineCalc.parse ts = .error (.unexpectedToken t) ∨
      LineCalc.parse ts = .error (.mismatchedBracket t)) :
    (ts[consumed ts]? = some t ∨ consumed ts = ts.length ∧ t = Token.endAt .start ∧
      ∀ u ∈ ts.getLast?, u.kind ≠ .endOfInput) ∧
    (∃ more, Sentence (ts.take (consumed ts) ++ more)) ∧
    (consumed ts < ts.length → ∀ more, ¬ Sentence (ts.take (consumed ts + 1) ++ more)) ∧
    (LineCalc.parse ts = .error (.mismatchedBracket t) ↔
      ((ts.take (consumed ts)).getLast?.any fun u => u.kind.endsOperand) = true ∧
        0 < unclosed (ts.take (consumed ts))) ∧
    (consumed ts < ts.length → ∀ us, us.take (consumed ts + 1) = ts.take (consumed ts + 1) →
      LineCalc.parse us = LineCalc.parse ts) := by
  obtain ⟨e, hparse, he⟩ : ∃ e, LineCalc.parse ts = .error e ∧
      (e = .unexpectedToken t ∨ e = .mismatchedBracket t) := by
    rcases h with h | h
    · exact ⟨_, h, Or.inl rfl⟩
    · exact ⟨_, h, Or.inr rfl⟩
  have hdeep : ∀ u, e ≠ .tooDeep u := by
    rintro u rfl
    rcases he with he | he <;> exact nomatch he
  obtain ⟨w, rest, hts, hrejects⟩ := rejects_of_error (p := ofTokens ts) hparse hdeep
  have hts : ts = w ++ rest := hts
  have hconsumed : consumed ts = w.length := hrejects.consumed_eq hts
  have hblamed : t = rest.headD (finishOf ts) := hrejects.blamed he
  have htake : ts.take w.length = w := by rw [hts, List.take_left]
  have hiff : LineCalc.parse ts = .error (.mismatchedBracket t) ↔
      ∃ u, e = .mismatchedBracket u := by
    rw [hparse]
    constructor
    · intro h
      exact ⟨t, Except.error.inj h⟩
    · rintro ⟨u, rfl⟩
      rcases he with he | he
      · exact nomatch he
      · rw [he]
  rw [hconsumed, htake]
  cases rest with
  | nil =>
      rw [List.append_nil] at hts
      rw [← hts] at hrejects ⊢
      refine ⟨Or.inr ⟨rfl, hblamed.trans (finishOf_eq hrejects.kind_ne), ?_⟩,
        hrejects.unbounded.exists_sentence, ?_, hiff.trans hrejects.mismatchedBracket_iff, ?_⟩
      · exact fun u hu => hrejects.kind_ne u (List.mem_of_getLast? hu)
      · exact fun hlt => absurd hlt (Nat.lt_irrefl _)
      · exact fun hlt => absurd hlt (Nat.lt_irrefl _)
  | cons u rest =>
      have hnext : ts.take (w.length + 1) = w ++ [u] := by
        rw [hts, List.take_length_add_append]
        rfl
      refine ⟨Or.inl ?_, hrejects.unbounded.exists_sentence, fun _ more => ?_,
        hiff.trans hrejects.mismatchedBracket_iff, fun _ us hus => ?_⟩
      · rw [hts, List.getElem?_append_right (Nat.le_refl _), Nat.sub_self, hblamed]
        rfl
      · rw [hnext, List.append_assoc]
        exact hrejects.not_sentence more
      · have hus : us = w ++ u :: us.drop (w.length + 1) := eq_append_cons (hus.trans hnext)
        rw [hparse]
        exact (hrejects.retarget (finishOf us) _).parseWithin_eq (p := ofTokens us) hus

/-- The end is blamed in `( 1`: the two tokens before it can be completed, the three cannot. -/
theorem error_blames_end_in_open_grouping :
    let ts : List Token := [⟨.leftParen, "(", .start⟩, ⟨.integer, "1", .start⟩, Token.endAt .start]
    LineCalc.parse ts = .error (.mismatchedBracket (Token.endAt .start)) ∧
      ts[2]? = some (Token.endAt .start) ∧
      (∃ more, Sentence (ts.take 2 ++ more)) ∧ (∀ more, ¬ Sentence (ts ++ more)) ∧
      ∀ us, us.take 3 = ts →
        LineCalc.parse us = .error (.mismatchedBracket (Token.endAt .start)) := by
  intro ts
  have hparse : LineCalc.parse ts = .error (.mismatchedBracket (Token.endAt .start)) := rfl
  have hconsumed : consumed ts = 2 := rfl
  have hblame := error_blames_first_impossible ts (Token.endAt .start) (Or.inr hparse)
  rw [hconsumed] at hblame
  obtain ⟨-, hprefix, hnone, -, hsame⟩ := hblame
  exact ⟨hparse, rfl, hprefix, hnone (by decide), hsame (by decide)⟩

end LineCalc.Parser
