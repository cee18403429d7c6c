/-
# `LineCalc.Proofs.Parser.Limit` — what the limit changes

The bounded parser against the unbounded one.  The limit looks at two counts at two kinds
of places: at what is open where a frame is opened, and at the height of a subtree where
one is finished.  Both are read off a state without any limit (`State.Exceeds`): frames
that nest are counted, and the height is that of the operand in hand.

`State.Passes` lists the states of an unbounded run, those amid a folding included.  The
bounded run fails as too deep exactly if one of them exceeds the bound, and otherwise it
ends as the unbounded run does, whether with a tree or with an error.
-/
import LineCalc.Proofs.Parser.Complete

namespace LineCalc.Parser

variable {limit : Option Nat} {finish : Token} {k bound : Nat} {ts : List Token}

/-! ## The states of an unbounded run -/

namespace State

def frames : State → List Frame
  | wanting s | holding s _ => s.frames

/-- More than `bound` groupings and unary operators are open, or the subtree that was finished
last is taller than `bound`. -/
def Exceeds (bound : Nat) : State → Prop
  | wanting s => bound < opened s.frames
  | holding s right => bound < opened s.frames ∨ bound < right.expr.height

/-- `Passes ts s rest`: an unbounded run on the tokens `ts` passes through the state `s` while the
tokens `rest` are still to be read.  A run takes one token after another, and before it goes on
with an operand it closes the frames that demand a tighter one, one after another. -/
inductive Passes (ts : List Token) : State → List Token → Prop
  | start : Passes ts .initial ts
  | take {s s' : State} {t : Token} {rest : List Token} :
      Passes ts s (t :: rest) → s.advance none t = .ok (some s') → Passes ts s' rest
  | close {f : Frame} {fs : List Frame} {n : Nat} {right node : Subtree} {rest : List Token} :
      Passes ts (holding ⟨f :: fs, n⟩ right) rest → closingLevel rest < f.demand →
      f.close none right = .ok node → Passes ts (holding ⟨fs, n - f.nests.toNat⟩ node) rest

theorem Reads.not_exceeds {s : State} {w : List Token} (h : s.Reads (some bound) k w) :
    ¬ s.Exceeds bound := by
  have hopened : ∀ {s : Stack}, s.Sound (some bound) → opened s.frames ≤ bound := fun hs =>
    hs.nesting_eq ▸ of_decide_eq_true hs.within_nesting
  cases s with
  | wanting s => exact Nat.not_lt.mpr (hopened h.1)
  | holding s right =>
      rintro (hn | hh)
      · exact Nat.not_lt.mpr (hopened (Held.stack h)) hn
      · have hsound := Held.operand h
        have hle : right.height ≤ bound := of_decide_eq_true hsound.within_height
        rw [hsound.height_eq] at hle
        exact Nat.not_lt.mpr hle hh

end State

/-! ## The unbounded parser never finds its input too deep -/

theorem close_none (f : Frame) (right : Subtree) :
    f.close none right = .ok ⟨f.node right.expr, f.below right.height + 1⟩ := f.close_eq right

theorem fold_none (s : Stack) (right : Subtree) (hk : k < operandLevel) :
    ∃ p, s.fold none k right = .ok p := by
  obtain ⟨fs, n⟩ := s
  induction fs generalizing n right with
  | nil => exact ⟨_, rfl⟩
  | cons f fs ih =>
      by_cases hf : k < f.demand
      · rw [Stack.fold_close hf, close_none]
        exact ih _ _
      · exact ⟨_, Stack.fold_stop (Nat.not_lt.mp hf) hk⟩

theorem conclude_none_ne_tooDeep (s : State) (t u : Token) :
    s.conclude none t ≠ .error (.tooDeep u) := by
  intro h
  cases s with
  | wanting s => cases h
  | holding s right =>
      obtain ⟨⟨⟨frames, n⟩, inner⟩, hfold⟩ := fold_none (k := 0) s right (by decide)
      simp only [State.conclude, hfold] at h
      cases frames <;> cases h

theorem advance_none (s : State) (t : Token) : ∃ next, s.advance none t = .ok next := by
  cases s with
  | wanting s =>
      simp only [State.advance, State.begin]
      split
      · exact ⟨_, rfl⟩
      · split
        · exact ⟨_, rfl⟩
        · split <;> exact ⟨_, rfl⟩
  | holding s right =>
      simp only [State.advance, State.extend]
      split
      next op _ =>
        obtain ⟨p, hfold⟩ := fold_none s right op.level_lt
        exact ⟨_, by rw [hfold]; rfl⟩
      next =>
        split
        next =>
          obtain ⟨⟨⟨frames, n⟩, inner⟩, hfold⟩ := fold_none (k := 0) s right (by decide)
          simp only [State.closeGroup, hfold]
          cases frames with
          | nil => exact ⟨_, rfl⟩
          | cons f fs => cases f <;> exact ⟨_, rfl⟩
        next => exact ⟨_, rfl⟩

theorem run_none_ne_tooDeep (s : State) (ts : List Token) (u : Token) :
    State.run none finish s ts ≠ .error (.tooDeep u) := by
  intro h
  rcases State.run_ends none finish s ts with
    ⟨w, rest, s', -, -, -, hrun⟩ | ⟨w, t, rest, s', e, -, -, herr, -⟩
  · rw [hrun] at h
    cases hc : s'.conclude none (rest.headD finish) with
    | ok tree => rw [hc] at h; exact nomatch h
    | error e =>
        rw [hc] at h
        cases h
        exact conclude_none_ne_tooDeep _ _ _ hc
  · obtain ⟨next, hnext⟩ := advance_none s' t
    rw [hnext] at herr
    exact nomatch herr

/-! ## Agreement -/

/-- `Agrees R x y`: `x` is `y`, or it is too deep and then `R` holds. -/
def Agrees {α : Type} (R : Prop) (x y : Except ParseError α) : Prop :=
  x = y ∨ (R ∧ ∃ t, x = .error (.tooDeep t))

theorem Agrees.refl {α : Type} {R : Prop} (x : Except ParseError α) : Agrees R x x := Or.inl rfl

theorem Agrees.bind {α β : Type} {R : Prop} {x y : Except ParseError α}
    {f g : α → Except ParseError β} (h : Agrees R x y)
    (hfg : ∀ a, y = .ok a → Agrees R (f a) (g a)) : Agrees R (x >>= f) (y >>= g) := by
  rcases h with rfl | ⟨hR, t, rfl⟩
  · cases x with
    | error e => exact .refl _
    | ok a => exact hfg a rfl
  · exact Or.inr ⟨hR, t, rfl⟩

/-- Some state of the unbounded run on `ts` exceeds the bound. -/
def Overruns (bound : Nat) (ts : List Token) : Prop :=
  ∃ s rest, State.Passes ts s rest ∧ s.Exceeds bound

theorem close_none_of_sound {f : Frame} {right : Subtree} (hf : f.Sound none)
    (hr : right.Sound none) : f.close none right = .ok (.ofExpr (f.node right.expr)) :=
  Frame.close_of_within hf hr rfl

section Agreement
variable {read : List Terminal} (bound)

theorem close_agrees {f : Frame} {right : Subtree} {R : Prop} (hf : f.Sound none)
    (hr : right.Sound none) (hR : bound < (f.node right.expr).height → R) :
    Agrees R (f.close (some bound) right) (f.close none right) := by
  cases hw : within (some bound) (f.node right.expr).height with
  | true =>
      rw [Frame.close_of_within hf hr hw, close_none_of_sound hf hr]
      exact .refl _
  | false =>
      rw [Frame.close_of_not_within hf hr hw]
      exact Or.inr ⟨hR (Nat.not_le.mp (of_decide_eq_false hw)), _, rfl⟩

theorem fold_agrees {s : Stack} {right : Subtree} {rest : List Token}
    (hp : State.Passes ts (.holding s right) rest)
    (hh : Held none (State.closingLevel rest) read s right) :
    Agrees (Overruns bound ts) (s.fold (some bound) (State.closingLevel rest) right)
      (s.fold none (State.closingLevel rest) right) := by
  have hk := State.closingLevel_lt rest
  obtain ⟨fs, n⟩ := s
  induction fs generalizing n right with
  | nil => exact .refl _
  | cons f fs ih =>
      by_cases hf : State.closingLevel rest < f.demand
      · obtain ⟨hfs, -, -⟩ := hh.stack.pop
        rw [Stack.fold_close hf, Stack.fold_close hf]
        refine .bind (close_agrees bound hfs hh.operand fun hlt => ?_) fun node hnode => ?_
        · exact ⟨_, _, hp.close hf (close_none_of_sound hfs hh.operand), Or.inr hlt⟩
        · exact ih _ (hp.close hf hnode) (hh.close hk hf hnode)
      · rw [Stack.fold_stop (Nat.not_lt.mp hf) hk, Stack.fold_stop (Nat.not_lt.mp hf) hk]
        exact .refl _

theorem descend_agrees {s : Stack} {t : Token} {f : Frame} {R : Prop}
    (hR : bound < s.nesting + 1 → R) :
    Agrees R (s.descend (some bound) t f) (s.descend none t f) := by
  cases hw : within (some bound) (s.nesting + 1) with
  | true =>
      simp only [Stack.descend, hw]
      exact .refl _
  | false =>
      simp only [Stack.descend, hw]
      exact Or.inr ⟨hR (Nat.not_le.mp (of_decide_eq_false hw)), t, rfl⟩

theorem begin_agrees {s : Stack} {t : Token} {rest : List Token}
    (hp : State.Passes ts (.wanting s) (t :: rest)) (hs : s.Sound none) :
    Agrees (Overruns bound ts) (State.begin (some bound) s t) (State.begin none s t) := by
  have hover : ∀ f : Frame, f.nests = true →
      (State.wanting s).advance none t
        = .ok (some (.wanting ⟨f :: s.frames, s.nesting + 1⟩)) →
      bound < s.nesting + 1 → Overruns bound ts := by
    intro f hf ha hlt
    refine ⟨_, _, hp.take ha, ?_⟩
    show bound < opened (f :: s.frames)
    rw [opened_cons, hf, ← hs.nesting_eq]
    exact hlt
  unfold State.begin
  split
  · exact .refl _
  next hl =>
    split
    next op hop =>
      refine .bind (descend_agrees bound fun hlt => hover (.unary op t) rfl ?_ hlt)
        fun _ _ => .refl _
      exact (State.Move.unary (UnaryOp.ofKind?_eq_some_iff.mp hop) rfl).advance_eq
    next =>
      split
      next hk =>
        refine .bind (descend_agrees bound fun hlt => hover (.group t) rfl ?_ hlt)
          fun _ _ => .refl _
        exact (State.Move.group hk rfl).advance_eq
      next => exact .refl _

theorem closeGroup_agrees {s : Stack} {right : Subtree} {t : Token} {rest : List Token}
    (hp : State.Passes ts (.holding s right) (t :: rest)) (ht : t.kind = .rightParen)
    (hh : Held none 0 read s right) :
    Agrees (Overruns bound ts) (State.closeGroup (some bound) s right)
      (State.closeGroup none s right) := by
  have hlevel := closingLevel_of_rightParen ht rest
  have hfold := fold_agrees bound hp (hlevel ▸ hh)
  rw [hlevel] at hfold
  refine .bind hfold fun p hpair => ?_
  obtain ⟨⟨frames, n⟩, inner⟩ := p
  obtain ⟨hinner, -⟩ := Held.fold (by decide) hh hpair
  cases frames with
  | nil => exact .refl _
  | cons f fs =>
      cases f with
      | unary _ _ | binary _ _ _ => exact .refl _
      | group u =>
          obtain ⟨hfs, -, -⟩ := hinner.stack.pop
          refine .bind (close_agrees bound hfs hinner.operand fun hlt => ?_) fun _ _ => .refl _
          have hnode := close_none_of_sound hfs hinner.operand
          exact ⟨_, _, hp.take (State.Move.close ht hpair hnode).advance_eq, Or.inr hlt⟩

theorem extend_agrees {s : Stack} {right : Subtree} {t : Token} {rest : List Token}
    (hp : State.Passes ts (.holding s right) (t :: rest))
    (hh : Held none (State.closingLevel [t]) read s right) :
    Agrees (Overruns bound ts) (State.extend (some bound) s right t)
      (State.extend none s right t) := by
  unfold State.extend
  split
  next op hop =>
    have hlevel : State.closingLevel (t :: rest) = op.level :=
      State.closingLevel_of_op (BinaryOp.ofKind?_eq_some_iff.mp hop) rest
    have hfold := fold_agrees bound hp hh
    rw [hlevel] at hfold
    exact .bind hfold fun _ _ => .refl _
  next =>
    split
    next hk => exact closeGroup_agrees bound hp hk (hh.mono (Nat.zero_le _))
    next => exact .refl _

theorem conclude_agrees {s : State} {t : Token} {rest w : List Token}
    (hp : State.Passes ts s rest) (hrest : State.closingLevel rest = 0)
    (hs : s.Reads none 0 w) :
    Agrees (Overruns bound ts) (s.conclude (some bound) t) (s.conclude none t) := by
  cases s with
  | wanting s => exact .refl _
  | holding s right =>
      have hfold := fold_agrees bound hp (hrest ▸ hs)
      rw [hrest] at hfold
      exact .bind hfold fun _ _ => .refl _

theorem advance_agrees {s : State} {t : Token} {rest w : List Token}
    (hp : State.Passes ts s (t :: rest)) (hs : s.Reads none (State.closingLevel [t]) w) :
    Agrees (Overruns bound ts) (s.advance (some bound) t) (s.advance none t) := by
  cases s with
  | wanting s => exact begin_agrees bound hp hs.1
  | holding s right => exact extend_agrees bound hp hs

/-- From any state of the unbounded run, the bounded one ends alike unless the run exceeds the
bound. -/
theorem run_agrees {s : State} {rest w : List Token} (hp : State.Passes ts s rest)
    (hs : s.Reads none (State.closingLevel rest) w) :
    Agrees (Overruns bound ts) (State.run (some bound) finish s rest)
      (State.run none finish s rest) := by
  induction rest generalizing s w with
  | nil => exact .bind (conclude_agrees bound hp rfl hs) fun _ _ => .refl _
  | cons t rest ih =>
      refine .bind (advance_agrees bound hp hs) fun next hnext => ?_
      cases next with
      | some s' =>
          have hreads := (State.Move.of_advance hnext).reads hs
          exact ih (hp.take hnext) (hreads.mono (Nat.le_of_lt (State.closingLevel_lt rest)))
      | none =>
          refine .bind ?_ fun _ _ => .refl _
          cases s with
          | wanting s => exact .refl _
          | holding s right =>
              have hbegins : ¬ BeginsWithBinaryOp (t :: rest) :=
                State.Stuck.not_beginsWithBinaryOp hnext
              have hlevel := closingLevel_eq_zero hbegins
              exact conclude_agrees bound hp hlevel (hlevel ▸ hs)

theorem parseWithin_agrees (p : Parser) :
    Agrees (Overruns bound p.rest) (p.parseWithin (some bound)) (p.parseWithin none) := by
  refine .bind ?_ fun _ _ => .refl _
  exact .bind (run_agrees bound .start State.reads_initial) fun _ _ => .refl _

end Agreement

/-! ## A run that exceeds the bound fails -/

theorem State.Passes.reads {s : State} {rest : List Token} (hp : State.Passes ts s rest) :
    ∃ w, s.Reads none (State.closingLevel rest) w := by
  induction hp with
  | start => exact ⟨[], State.reads_initial⟩
  | take _ ha ih =>
      obtain ⟨w, hs⟩ := ih
      have hreads := (State.Move.of_advance ha).reads hs
      exact ⟨_, hreads.mono (Nat.le_of_lt (State.closingLevel_lt _))⟩
  | close _ hf hnode ih =>
      obtain ⟨w, hs⟩ := ih
      exact ⟨w, Held.close (State.closingLevel_lt _) hf hs hnode⟩

/-- Under any limit, a run comes to every state that the unbounded run passes through, unless it
fails before as too deep. -/
theorem State.Passes.run_eq (limit : Option Nat) (finish : Token) {s : State}
    {rest : List Token} (hp : State.Passes ts s rest) :
    (∃ t, State.run limit finish .initial ts = .error (.tooDeep t)) ∨
      (∃ w, s.Reads limit (State.closingLevel rest) w) ∧
        State.run limit finish .initial ts = State.run limit finish s rest := by
  induction hp with
  | start => exact Or.inr ⟨⟨[], State.reads_initial⟩, rfl⟩
  | @take s s' t rest hp ha ih =>
      rcases ih with hdeep | ⟨⟨w, hs⟩, hrun⟩
      · exact Or.inl hdeep
      have hadvance : s.advance limit t = .ok (some s') ∨
          ∃ u, s.advance limit t = .error (.tooDeep u) := by
        cases limit with
        | none => exact Or.inl ha
        | some bound =>
            obtain ⟨w', hs'⟩ := hp.reads
            rcases advance_agrees bound hp hs' with heq | ⟨-, hdeep⟩
            · exact Or.inl (heq.trans ha)
            · exact Or.inr hdeep
      rcases hadvance with hstep | ⟨u, hdeep⟩
      · have hm := State.Move.of_advance hstep
        refine Or.inr ⟨⟨_, (hm.reads hs).mono (Nat.le_of_lt (State.closingLevel_lt rest))⟩, ?_⟩
        rw [hrun, State.run_cons_of_move hm]
      · exact Or.inl ⟨u, by rw [hrun, State.run_cons_of_error hdeep]⟩
  | @close f fs n right node rest hp hf hnode ih =>
      rcases ih with hdeep | ⟨⟨w, hs⟩, hrun⟩
      · exact Or.inl hdeep
      obtain ⟨hfs, -, -⟩ := (Held.stack hs).pop
      rw [State.run_close hf] at hrun
      cases hw : within limit (f.node right.expr).height with
      | true =>
          have hclose := Frame.close_of_within hfs (Held.operand hs) hw
          have hsame : node = .ofExpr (f.node right.expr) := by
            rw [Frame.close_of_within hfs (Held.operand hs) rfl] at hnode
            cases hnode
            rfl
          rw [← hsame] at hclose
          rw [hclose] at hrun
          exact Or.inr ⟨⟨w, Held.close (State.closingLevel_lt rest) hf hs hclose⟩, hrun⟩
      | false =>
          rw [Frame.close_of_not_within hfs (Held.operand hs) hw] at hrun
          exact Or.inl ⟨f.token, hrun⟩

/-- The unbounded run indeed comes to every state that it is said to pass through. -/
theorem State.Passes.run_none {s : State} {rest : List Token} (hp : State.Passes ts s rest) :
    State.run none finish .initial ts = State.run none finish s rest := by
  rcases hp.run_eq none finish with ⟨t, hdeep⟩ | ⟨-, hrun⟩
  · exact absurd hdeep (run_none_ne_tooDeep _ _ _)
  · exact hrun

theorem run_tooDeep_of_overruns (finish : Token) (h : Overruns bound ts) :
    ∃ t, State.run (some bound) finish .initial ts = .error (.tooDeep t) := by
  obtain ⟨s, rest, hp, hexceeds⟩ := h
  rcases hp.run_eq (some bound) finish with hdeep | ⟨⟨w, hs⟩, -⟩
  · exact hdeep
  · exact absurd hexceeds hs.not_exceeds

/-! ## The whole list -/

theorem run_of_parseWithin_tooDeep {p : Parser} {t : Token}
    (h : p.parseWithin limit = .error (.tooDeep t)) :
    State.run limit p.finish .initial p.rest = .error (.tooDeep t) := by
  cases hrun : State.run limit p.finish .initial p.rest with
  | error e =>
      simp only [parseWithin, subtree, hrun] at h
      cases h
      rfl
  | ok r =>
      have hsub : p.subtree limit = .ok (r.1, ⟨r.2, p.finish⟩) := by rw [subtree, hrun]; rfl
      rw [parseWithin_of_subtree hsub] at h
      split at h
      · cases h
      · split at h <;> cases h

/-- The bounded parser finds a list too deep exactly if the unbounded run exceeds the bound. -/
theorem parseWithin_tooDeep_iff (p : Parser) :
    (∃ t, p.parseWithin (some bound) = .error (.tooDeep t)) ↔ Overruns bound p.rest := by
  constructor
  · rintro ⟨t, ht⟩
    rcases parseWithin_agrees bound p with heq | ⟨hover, -⟩
    · exact absurd (run_of_parseWithin_tooDeep (heq.symm.trans ht)) (run_none_ne_tooDeep _ _ _)
    · exact hover
  · intro h
    obtain ⟨t, ht⟩ := run_tooDeep_of_overruns p.finish h
    refine ⟨t, ?_⟩
    simp only [parseWithin, subtree, ht]
    rfl

/-! ## The token that is blamed -/

theorem fold_keeps {P : Frame → Prop} {s s' : Stack} {right right' : Subtree}
    (hk : k < operandLevel) (hs : ∀ f ∈ s.frames, P f)
    (h : s.fold limit k right = .ok (s', right')) : ∀ f ∈ s'.frames, P f :=
  (Stack.fold_invariant (P := fun s _ => ∀ f ∈ s.frames, P f) hk
    (fun _ hp _ f hf => hp f (List.mem_cons_of_mem _ hf)) hs h).1

theorem close_eq_error {f : Frame} {right : Subtree} {e : ParseError}
    (h : f.close limit right = .error e) : e = .tooDeep f.token := by
  rw [Frame.close_eq] at h
  unfold Subtree.node at h
  split at h
  · exact nomatch h
  · cases h
    rfl

theorem fold_eq_error {s : Stack} {right : Subtree} {e : ParseError} (hk : k < operandLevel)
    (h : s.fold limit k right = .error e) : ∃ f ∈ s.frames, e = .tooDeep f.token := by
  obtain ⟨fs, n⟩ := s
  induction fs generalizing n right with
  | nil => exact nomatch h
  | cons f fs ih =>
      by_cases hf : k < f.demand
      · rw [Stack.fold_close hf] at h
        cases hnode : f.close limit right with
        | error e' =>
            rw [hnode] at h
            cases h
            exact ⟨f, List.mem_cons_self, close_eq_error hnode⟩
        | ok node =>
            rw [hnode] at h
            obtain ⟨g, hg, he⟩ := ih _ h
            exact ⟨g, List.mem_cons_of_mem _ hg, he⟩
      · rw [Stack.fold_stop (Nat.not_lt.mp hf) hk] at h
        exact nomatch h

theorem descend_eq_error {s : Stack} {t : Token} {f : Frame} {e : ParseError}
    (h : s.descend limit t f = .error e) : e = .tooDeep t := by
  unfold Stack.descend at h
  split at h
  · exact nomatch h
  · cases h
    rfl

namespace State

theorem begin_eq_error {s : Stack} {t : Token} {e : ParseError}
    (h : begin limit s t = .error e) : e = .tooDeep t ∧ t.MakesNode := by
  unfold begin at h
  split at h
  · exact nomatch h
  next =>
    split at h
    next op hop =>
      have hk := UnaryOp.ofKind?_eq_some_iff.mp hop
      cases hd : s.descend limit t (.unary op t) with
      | ok s' => rw [hd] at h; exact nomatch h
      | error e' =>
          rw [hd] at h
          cases h
          exact ⟨descend_eq_error hd, Or.inr (Or.inl ⟨op, hk⟩)⟩
    next =>
      split at h
      next hk =>
        cases hd : s.descend limit t (.group t) with
        | ok s' => rw [hd] at h; exact nomatch h
        | error e' =>
            rw [hd] at h
            cases h
            exact ⟨descend_eq_error hd, Or.inl hk⟩
      next => exact nomatch h

theorem closeGroup_eq_error {s : Stack} {right : Subtree} {e : ParseError}
    (h : closeGroup limit s right = .error e) : ∃ f ∈ s.frames, e = .tooDeep f.token := by
  unfold closeGroup at h
  cases hfold : s.fold limit 0 right with
  | error e' =>
      rw [hfold] at h
      cases h
      exact fold_eq_error (by decide) hfold
  | ok p =>
      obtain ⟨⟨frames, n⟩, inner⟩ := p
      rw [hfold] at h
      cases frames with
      | nil => exact nomatch h
      | cons f fs =>
          cases f with
          | unary _ _ | binary _ _ _ => exact nomatch h
          | group u =>
              have hmem : ∀ f ∈ Frame.group u :: fs, f ∈ s.frames :=
                fold_keeps (by decide) (fun _ hf => hf) hfold
              cases hnode : (Frame.group u).close limit inner with
              | ok node => simp only [bind, Except.bind, hnode] at h; exact nomatch h
              | error e' =>
                  simp only [bind, Except.bind, hnode] at h
                  cases h
                  exact ⟨_, hmem _ List.mem_cons_self, close_eq_error hnode⟩

/-- Taking a token fails only as too deep, and blames the token itself or an open frame. -/
theorem advance_eq_error {s : State} {t : Token} {e : ParseError}
    (h : s.advance limit t = .error e) :
    (e = .tooDeep t ∧ t.MakesNode) ∨ ∃ f ∈ s.frames, e = .tooDeep f.token := by
  cases s with
  | wanting s => exact Or.inl (begin_eq_error h)
  | holding s right =>
      have h : extend limit s right t = .error e := h
      unfold extend at h
      split at h
      next op _ =>
        cases hfold : s.fold limit op.level right with
        | ok p => rw [hfold] at h; exact nomatch h
        | error e' =>
            rw [hfold] at h
            cases h
            exact Or.inr (fold_eq_error op.level_lt hfold)
      next =>
        split at h
        · exact Or.inr (closeGroup_eq_error h)
        · exact nomatch h

/-- The frames of a state were made by tokens that were read. -/
def FramesFrom (s : State) (w : List Token) : Prop :=
  ∀ f ∈ s.frames, f.token ∈ w ∧ f.token.MakesNode

theorem Move.framesFrom {s s' : State} {t : Token} {w : List Token} (hm : Move limit s t s')
    (h : s.FramesFrom w) : s'.FramesFrom (w ++ [t]) := by
  have hold : ∀ {f : Frame}, f ∈ s.frames → f.token ∈ w ++ [t] ∧ f.token.MakesNode :=
    fun hf => ⟨List.mem_append_left _ (h _ hf).1, (h _ hf).2⟩
  have hlast : t ∈ w ++ [t] := List.mem_append_right _ List.mem_cons_self
  cases hm with
  | literal _ => exact fun f hf => hold hf
  | @unary _ _ op ht _ =>
      intro f hf
      rcases List.mem_cons.mp hf with rfl | hf
      · exact ⟨hlast, Or.inr (Or.inl ⟨op, ht⟩)⟩
      · exact hold hf
  | group ht _ =>
      intro f hf
      rcases List.mem_cons.mp hf with rfl | hf
      · exact ⟨hlast, Or.inl ht⟩
      · exact hold hf
  | @binary _ _ _ _ _ op ht hfold =>
      intro f hf
      rcases List.mem_cons.mp hf with rfl | hf
      · exact ⟨hlast, Or.inr (Or.inr ⟨op, ht⟩)⟩
      · exact hold (fold_keeps op.level_lt (fun _ hg => hg) hfold f hf)
  | close _ hfold _ =>
      intro f hf
      exact hold (fold_keeps (by decide) (fun _ hg => hg) hfold f (List.mem_cons_of_mem _ hf))

theorem Leads.framesFrom {s : State} {w : List Token} (h : Leads limit .initial w s) :
    s.FramesFrom w :=
  h.invariant (P := FramesFrom) (v := []) (fun hm hp => hm.framesFrom hp)
    (fun _ hf => nomatch hf)

theorem conclude_tooDeep {s : State} {t u : Token}
    (h : s.conclude limit t = .error (.tooDeep u)) : ∃ f ∈ s.frames, u = f.token := by
  cases s with
  | wanting s => cases h
  | holding s right =>
      cases hfold : s.fold limit 0 right with
      | error e =>
          simp only [conclude, hfold] at h
          cases h
          obtain ⟨f, hf, he⟩ := fold_eq_error (by decide) hfold
          cases he
          exact ⟨f, hf, rfl⟩
      | ok p =>
          obtain ⟨⟨frames, n⟩, inner⟩ := p
          simp only [conclude, hfold] at h
          cases frames <;> cases h

/-- What a run blames as too deep is a token of the list that makes a node. -/
theorem run_tooDeep {ts : List Token} {t : Token}
    (h : run limit finish .initial ts = .error (.tooDeep t)) : t ∈ ts ∧ t.MakesNode := by
  rcases run_ends limit finish .initial ts with
    ⟨w, rest, s, rfl, hw, -, hrun⟩ | ⟨w, u, rest, s, e, rfl, hw, herr, hrun⟩
  · rw [hrun] at h
    cases hc : s.conclude limit (rest.headD finish) with
    | ok tree => rw [hc] at h; exact nomatch h
    | error e =>
        rw [hc] at h
        cases h
        obtain ⟨f, hf, rfl⟩ := conclude_tooDeep hc
        obtain ⟨hmem, hmakes⟩ := hw.framesFrom f hf
        exact ⟨List.mem_append_left _ hmem, hmakes⟩
  · rw [hrun] at h
    cases h
    rcases advance_eq_error herr with ⟨he, hmakes⟩ | ⟨f, hf, he⟩
    · cases he
      exact ⟨List.mem_append_right _ List.mem_cons_self, hmakes⟩
    · cases he
      obtain ⟨hmem, hmakes⟩ := hw.framesFrom f hf
      exact ⟨List.mem_append_left _ hmem, hmakes⟩

end State

/-- The bounded parser refines the unbounded one: it finds a list too deep exactly if the unbounded
run has more open at once, or finishes a taller subtree, than the bound admits, and otherwise it
gives what the unbounded parser gives. -/
theorem parse_refines_unbounded (ts : List Token) :
    ((∃ t, LineCalc.parse ts = .error (.tooDeep t)) ↔
      ∃ s rest, State.Passes ts s rest ∧ s.Exceeds 256) ∧
    ((∀ t, LineCalc.parse ts ≠ .error (.tooDeep t)) →
      LineCalc.parse ts = (ofTokens ts).parseWithin none) ∧
    (∀ e, (ofTokens ts).parseWithin none = .ok e →
      (e.height ≤ 256 → LineCalc.parse ts = .ok e) ∧
      (256 < e.height → ∃ t ∈ ts, LineCalc.parse ts = .error (.tooDeep t) ∧ t.MakesNode)) := by
  have hagrees := parseWithin_agrees 256 (ofTokens ts)
  refine ⟨parseWithin_tooDeep_iff (ofTokens ts), ?_, ?_⟩
  · intro hne
    rcases hagrees with heq | ⟨-, t, ht⟩
    · exact heq
    · exact absurd ht (hne t)
  · intro e he
    obtain ⟨hconformant, -, hsentence⟩ := parseWithin_eq_ok_iff.mp he
    constructor
    · intro hheight
      exact parseWithin_eq_ok_iff.mpr ⟨hconformant, decide_eq_true hheight, hsentence⟩
    · intro hheight
      rcases hagrees with heq | ⟨-, t, ht⟩
      · obtain ⟨-, hwithin, -⟩ := parseWithin_eq_ok_iff.mp (heq.trans he)
        exact absurd hheight (Nat.not_lt.mpr (of_decide_eq_true hwithin))
      · obtain ⟨hmem, hmakes⟩ := State.run_tooDeep (run_of_parseWithin_tooDeep ht)
        exact ⟨t, hmem, ht, hmakes⟩

/-- A literal in 257 groupings makes a tree that is one node too tall. -/
theorem parse_refines_unbounded_of_groupings :
    let e := Expr.nest (.literal (.integer "1")) 257
    let ts := List.replicate 257 (⟨.leftParen, "(", .start⟩ : Token) ++ [⟨.integer, "1", .start⟩]
      ++ List.replicate 257 ⟨.rightParen, ")", .start⟩ ++ [.endAt .start]
    (ofTokens ts).parseWithin none = .ok e ∧ 256 < e.height ∧
      ∃ t ∈ ts, LineCalc.parse ts = .error (.tooDeep t) ∧ t.MakesNode := by
  intro e ts
  have hyield : ts.map Token.terminal = e.yield ++ [] ++ [.sign .endOfInput] := by
    simp only [ts, e, Expr.yield_nest, List.map_append, List.map_replicate, List.append_nil]
    rfl
  have hsentence : IsSentence e ts := isSentence_iff_terminals.mpr ⟨[], Or.inl rfl, hyield⟩
  have hconformant : e.Conformant :=
    Expr.conformant_nest (e := .literal (.integer "1")) trivial 257
  have haccepts : (ofTokens ts).parseWithin none = .ok e :=
    parseWithin_eq_ok_iff.mpr ⟨hconformant, rfl, ts, [], (List.append_nil ts).symm, hsentence⟩
  have htall : 256 < e.height := by
    rw [Expr.height_nest]
    decide
  obtain ⟨-, -, htrees⟩ := parse_refines_unbounded ts
  exact ⟨haccepts, htall, (htrees e haccepts).2 htall⟩

end LineCalc.Parser
