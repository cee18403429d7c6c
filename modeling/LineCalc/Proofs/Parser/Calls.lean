/-
# `LineCalc.Proofs.Parser.Calls` — one expression after another

Calls of the grammar one after another, each from the cursor that the one before it left
behind, up to the first error.  Between two calls nothing is open, so the next call does what
a run of the parser does from its beginning (`Cursor.expression_result`,
`Cursor.parse_result`): what was read before shows in the tokens that are left and in
nothing else.
-/
import LineCalc.Proofs.Parser.Follow
import LineCalc.Proofs.Parser.Blame
import LineCalc.Proofs.Parser.Terminals

namespace LineCalc.Parser

/-! ## Calls -/

/-- Reads by a rule: the tree, and the cursor behind it. -/
def Rule.parse (r : Rule) (c : Cursor) : Step (Expr × Cursor) := do
  let (e, d) ← r.read c
  return (e, d.1)

namespace Cursor

def expression (c : Cursor) : Step (Expr × Cursor) := (Rule.chain .equality).parse c

/-- Moves past the token at the cursor, if its kind is wanted. -/
def skip (wanted : Token.Kind → Bool) (c : Cursor) : Step Cursor :=
  match c.take? wanted with
  | some (_, d) => do
      Walk.note d.1
      return d.1
  | none => return c

/-- Reads one expression, a statement mark if there is one, and the end marker. -/
def parse (c : Cursor) : Step Expr := do
  let (e, d) ← c.expression
  let d ← d.skip (· == .endOfStatement)
  match d.take? (· == .endOfInput) with
  | some (_, d) => do
      Walk.note d.1
      return e
  | none => Walk.stop (.error (.unexpectedToken d.current))

/-- Reads `n` expressions one after another, up to the first error. -/
def expressions : Nat → Cursor → Step (List Expr × Cursor)
  | 0, c => return ([], c)
  | n + 1, c => do
      let (e, d) ← c.expression
      let (es, d) ← d.expressions n
      return (e :: es, d)

def parser (c : Cursor) : Parser := ⟨c.rest, c.finish⟩

/-- The cursor that a parser is left at once it has given the tree `e`. -/
def ofParser (e : Expr) (q : Parser) : Cursor := ⟨q.rest, q.finish, 0, e.height⟩

end Cursor

/-! ## Any rule anywhere -/

theorem Rule.parse_result (r : Rule) (c : Cursor) :
    (r.parse c).result = (r.read c).result.map fun x => (x.1, x.2.1) := by
  rw [Rule.parse, Walk.result_bind]
  cases (r.read c).result <;> rfl

theorem primary_result {c : Cursor} (h : ∃ t ∈ c.rest.head?, opensUnary t.kind = true) :
    (Rule.primary.read c).result = .error (.error (.unexpectedToken c.current)) := by
  obtain ⟨t, ht, hopens⟩ := h
  obtain ⟨op, hop⟩ := opensUnary_iff.mp hopens
  have hnone : ∀ u ∈ c.rest.head?, opensPrimary u.kind = false := by
    intro u hu
    obtain rfl : u = t := Option.some.inj (hu.symm.trans ht)
    rw [hop]
    cases op <;> rfl
  rw [Rule.read, Cursor.take?_eq_none hnone]
  rfl

/-- From any cursor a rule leaves the depth as it was, and behind it a height within the limit. -/
theorem Rule.parse_ok {r : Rule} {c d : Cursor} {e : Expr} (h : (r.parse c).result = .ok (e, d)) :
    d.depth = c.depth ∧ d.height ≤ maxDepth := by
  rw [Rule.parse_result] at h
  cases hread : (r.read c).result with
  | error stop =>
      rw [hread] at h
      exact nomatch h
  | ok x =>
      rw [hread] at h
      cases h
      have hbegins : r.Begins c.rest := by
        rintro rfl t ht
        cases hopens : opensUnary t.kind with
        | false => rfl
        | true =>
            rw [primary_result ⟨t, ht, hopens⟩] at hread
            exact nomatch hread
      have hbound : maxDepth ≤ max (max c.depth c.height) maxDepth := Nat.le_max_right _ _
      have hwithin : c.Within (max (max c.depth c.height) maxDepth) :=
        ⟨Nat.le_trans (Nat.le_max_left _ _) (Nat.le_max_left _ _),
          Nat.le_trans (Nat.le_max_right _ _) (Nat.le_max_left _ _)⟩
      have hkeeps := r.follows c.rest.length (s := ⟨[], c.depth⟩) rfl hbegins hbound hwithin rfl
        (Nat.zero_le _)
      have harrives := hkeeps.value x hread
      exact ⟨harrives.depth_eq, harrives.height_le⟩

theorem Cursor.Short.go_bind_result {α : Type} {n : Nat} (c : Short n) (f : Short n → Step α) :
    (c.go >>= f).result = (f c).result := rfl

theorem Cursor.Short.descend_bind_result {α : Type} {n : Nat} (t : Token) (c : Short n)
    (f : Short n → Step α) :
    (c.descend t >>= f).result = if maxDepth ≤ c.1.depth then .error (.error (.tooDeep t))
      else (f ⟨{ c.1 with depth := c.1.depth + 1 }, c.2⟩).result := by
  rw [Walk.result_bind, descend]
  split <;> rfl

/-- What a rule comes to does not depend on the height of the tree read last. -/
theorem Rule.read_result_height (r : Rule) (rest : List Token) (finish : Token)
    (depth height height' : Nat) :
    (r.read ⟨rest, finish, depth, height⟩).result
      = (r.read ⟨rest, finish, depth, height'⟩).result := by
  match r with
  | .chain level =>
      rw [Rule.read, Rule.read, Walk.result_bind, Walk.result_bind,
        Rule.read_result_height level.operand rest finish depth height height']
  | .unary =>
      rw [Rule.read, Rule.read]
      rcases Cursor.wanted_or_not opensUnary rest with ⟨t, ts, rfl, hopens⟩ | hhead
      · rw [Cursor.take?_cons hopens, Cursor.take?_cons hopens]
        rw [Cursor.Short.go_bind_result, Cursor.Short.go_bind_result]
        refine Walk.result_bind_congr (unaryOp t) fun op => ?_
        rw [Cursor.Short.descend_bind_result, Cursor.Short.descend_bind_result]
        refine if_congr Iff.rfl rfl ?_
        rw [Walk.result_bind, Walk.result_bind]
        exact congrArg (fun x => Except.bind x _)
          (Rule.read_result_height .unary ts finish (depth + 1) height height')
      · rw [Cursor.take?_eq_none hhead, Cursor.take?_eq_none hhead]
        exact Rule.read_result_height .primary rest finish depth height height'
  | .primary =>
      rw [Rule.read, Rule.read]
      rcases Cursor.wanted_or_not opensPrimary rest with ⟨t, ts, rfl, hopens⟩ | hhead
      · rw [Cursor.take?_cons hopens, Cursor.take?_cons hopens]
        rw [Cursor.Short.go_bind_result, Cursor.Short.go_bind_result]
        cases Literal.ofToken? t with
        | some l => rfl
        | none =>
            by_cases hk : t.kind = .leftParen
            · simp only [if_pos hk, Cursor.Short.descend_bind_result]
              refine if_congr Iff.rfl rfl ?_
              rw [Walk.result_bind, Walk.result_bind]
              exact congrArg (fun x => Except.bind x _)
                (Rule.read_result_height (.chain .equality) ts finish (depth + 1) height height')
            · simp only [if_neg hk]
      · rw [Cursor.take?_eq_none hhead, Cursor.take?_eq_none hhead]
        rfl
termination_by (rest.length, r.rank)
decreasing_by
  · exact .right _ level.rank_operand_lt
  · exact .left _ _ (‹rest = _ :: _› ▸ Nat.lt_succ_self _)
  · exact .right _ (by decide)
  · exact .left _ _ (‹rest = _ :: _› ▸ Nat.lt_succ_self _)

/-! ## One call -/

/-- What becomes of a list once the tree `e` is read and the parser `q` is left. -/
def ended (e : Expr) (q : Parser) : Except ParseError Expr :=
  match dropStatementMark q.rest with
  | [] => .error (.unexpectedToken q.finish)
  | t :: _ => if t.isEnd then .ok e else .error (.unexpectedToken t)

theorem parse_eq (p : Parser) : p.parse = p.expression.bind fun x => ended x.1 x.2 := by
  unfold parse parseWithin expression
  cases p.subtree (some maxDepth) <;> rfl

theorem expression_eq (p : Parser) :
    p.expression = (State.run (some maxDepth) p.finish .initial p.rest).map fun x =>
      (x.1.expr, ⟨x.2, p.finish⟩) := by
  unfold expression subtree
  cases State.run (some maxDepth) p.finish .initial p.rest <;> rfl

namespace Cursor

variable {bound : Nat} {c d : Cursor}

/-- What the parser that is left at a cursor reads, and the cursor it is left at then. -/
def reading (c : Cursor) : Except ParseError (Expr × Cursor) :=
  c.parser.expression.map fun x => (x.1, ofParser x.1 x.2)

theorem reading_eq (c : Cursor) :
    c.reading = (State.run (some maxDepth) c.finish .initial c.rest).map fun x =>
      (x.1.expr, ⟨x.2, c.finish, 0, x.1.expr.height⟩) := by
  rw [reading, expression_eq, parser]
  cases State.run (some maxDepth) c.finish .initial c.rest <;> rfl

theorem parse_eq_reading (c : Cursor) :
    c.parser.parse = c.reading.bind fun x => ended x.1 x.2.parser := by
  rw [parse_eq, reading]
  cases c.parser.expression <;> rfl

/-- `c.Spans e d`: the tokens from the cursor `c` up to the cursor `d` spell the tree `e`, whose
height is noted at `d`, and nothing is open there. -/
structure Spans (c : Cursor) (e : Expr) (d : Cursor) : Prop where
  depth_eq : d.depth = 0
  finish_eq : d.finish = c.finish
  height_eq : d.height = e.height
  height_le : d.height ≤ maxDepth
  rest_eq : ∃ w, c.rest = w ++ d.rest ∧ w.map Token.terminal = e.yield ∧
    ∀ t ∈ w, t.kind ≠ .endOfInput

theorem spans_of_reading {e : Expr} (h : c.reading = .ok (e, d)) : c.Spans e d := by
  rw [reading_eq] at h
  cases hrun : State.run (some maxDepth) c.finish .initial c.rest with
  | error err =>
      rw [hrun] at h
      exact nomatch h
  | ok x =>
      rw [hrun] at h
      cases h
      obtain ⟨w, s, hrest, hleads, hsound, hyield, -⟩ := State.run_sound hrun
      exact ⟨rfl, rfl, rfl, within_iff.mp (hsound.height_eq ▸ hsound.within_height), w, hrest,
        hyield, hleads.kind_ne⟩

theorem Spans.within {e : Expr} (h : c.Spans e d) (hbound : maxDepth ≤ bound) : d.Within bound :=
  ⟨h.depth_eq ▸ Nat.zero_le _, Nat.le_trans h.height_le hbound⟩

/-- With nothing open, the next expression is what the parser reads. -/
theorem expression_keeps (hbound : maxDepth ≤ bound) (hc : c.Within bound) (hdepth : c.depth = 0) :
    c.expression.Keeps (Within bound) (FailsAs c.reading) fun x => c.reading = .ok x := by
  have hfollows := Rule.follows (.chain .equality) c.rest.length (s := .empty) rfl
    (Rule.begins_of_ne (by decide) _) hbound hc hdepth.symm (Nat.le_refl 0)
  rw [reading_eq]
  refine (hfollows.mono ?_ (fun _ h => h)).bind ?_
  · rintro (e | b) hfails
    · have hrun : State.run (some maxDepth) c.finish .initial c.rest = .error e := hfails
      show Except.map _ _ = .error e
      rw [hrun]
      rfl
    · exact hfails
  · rintro ⟨e, d⟩ harrives
    have hrun : State.run (some maxDepth) c.finish .initial c.rest
        = .ok (⟨e, d.1.height⟩, d.1.rest) :=
      harrives.run_eq.trans (State.run_holding_empty harrives.ends.not_beginsWithBinaryOp)
    refine Walk.keeps_pure ?_
    rw [hrun, ← harrives.finish_eq, ← hdepth, ← harrives.depth_eq]
    show Except.ok (e, (⟨d.1.rest, d.1.finish, d.1.depth, e.height⟩ : Cursor)) = _
    rw [← show d.1.height = e.height from harrives.height_eq]

theorem skip_keeps {E : Stop ParseError Breach → Prop} (hc : c.Within bound) :
    (c.skip (· == .endOfStatement)).Keeps (Within bound) E fun d =>
      d = { c with rest := dropStatementMark c.rest } := by
  obtain ⟨rest, finish, depth, height⟩ := c
  rw [skip]
  cases rest with
  | nil => exact Walk.keeps_pure rfl
  | cons t ts =>
      cases ht : t.kind == .endOfStatement with
      | true =>
          rw [take?_cons ht, dropStatementMark, if_pos (beq_iff_eq.mp ht)]
          have hd : Within bound ⟨ts, finish, depth, height⟩ := ⟨hc.depth_le, hc.height_le⟩
          exact (Walk.keeps_note hd trivial (Q := fun _ => True)).bind fun _ _ =>
            Walk.keeps_pure rfl
      | false =>
          rw [take?_eq_none, dropStatementMark, if_neg (beq_eq_false_iff_ne.mp ht)]
          · exact Walk.keeps_pure rfl
          · rintro u ⟨⟩
            exact ht

theorem parse_keeps (hbound : maxDepth ≤ bound) (hc : c.Within bound) (hdepth : c.depth = 0) :
    c.parse.Keeps (Within bound) (FailsAs c.parser.parse) fun e => c.parser.parse = .ok e := by
  refine ((expression_keeps hbound hc hdepth).mono ?_ (fun _ h => h)).bind ?_
  · rintro (e | b) hfails
    · show c.parser.parse = .error e
      rw [parse_eq_reading, show c.reading = .error e from hfails]
      rfl
    · exact hfails
  rintro ⟨e, d⟩ hd
  have hparse : c.parser.parse = ended e d.parser := by rw [parse_eq_reading, hd]; rfl
  rw [hparse]
  have hwithin := (spans_of_reading hd).within hbound
  refine (skip_keeps hwithin).bind ?_
  rintro _ rfl
  rw [ended, parser]
  cases dropStatementMark d.rest with
  | nil => exact Walk.keeps_stop rfl
  | cons t ts =>
      cases hend : t.kind == .endOfInput with
      | true =>
          rw [take?_cons hend]
          have hlast : Within bound ⟨ts, d.finish, d.depth, d.height⟩ :=
            ⟨hwithin.depth_le, hwithin.height_le⟩
          refine (Walk.keeps_note hlast trivial (Q := fun _ => True)).bind fun _ _ =>
            Walk.keeps_pure ?_
          exact if_pos hend
      | false =>
          rw [take?_eq_none]
          · refine Walk.keeps_stop ?_
            exact if_neg (Bool.eq_false_iff.mp hend)
          · rintro u ⟨⟩
            exact hend

theorem expression_result (hdepth : c.depth = 0) : c.expression.result = unbroken _ c.reading :=
  (expression_keeps (Nat.le_max_right c.height maxDepth)
    ⟨hdepth ▸ Nat.zero_le _, Nat.le_max_left _ _⟩ hdepth).result_eq

theorem parse_result (hdepth : c.depth = 0) :
    c.parse.result = unbroken _ c.parser.parse :=
  (parse_keeps (Nat.le_max_right c.height maxDepth)
    ⟨hdepth ▸ Nat.zero_le _, Nat.le_max_left _ _⟩ hdepth).result_eq

/-! ## A sequence of calls -/

/-- What the parser that is left at a cursor reads in `n` calls, up to the first error. -/
def readings : Nat → Cursor → Except ParseError (List Expr × Cursor)
  | 0, c => .ok ([], c)
  | n + 1, c => do
      let (e, d) ← c.reading
      let (es, d) ← d.readings n
      return (e :: es, d)

theorem readings_succ (c : Cursor) (n : Nat) :
    c.readings (n + 1)
      = c.reading.bind fun x => (x.2.readings n).map fun y => (x.1 :: y.1, y.2) := by
  rw [readings]
  cases c.reading with
  | error e => rfl
  | ok x =>
      show Except.bind (x.2.readings n) _ = (x.2.readings n).map _
      cases x.2.readings n <;> rfl

/-- `c.SpansAll es d`: the trees `es` stand one after another between the cursors. -/
inductive SpansAll : Cursor → List Expr → Cursor → Prop where
  | nil (c : Cursor) : SpansAll c [] c
  | cons {c d d' : Cursor} {e : Expr} {es : List Expr} :
      c.Spans e d → SpansAll d es d' → SpansAll c (e :: es) d'

/-- What one call leaves is what the next one needs. -/
theorem expressions_keeps (hbound : maxDepth ≤ bound) (hc : c.Within bound) (hdepth : c.depth = 0)
    (n : Nat) :
    (c.expressions n).Keeps (Within bound) (FailsAs (c.readings n)) fun x =>
      c.readings n = .ok x ∧ x.1.length = n ∧ c.SpansAll x.1 x.2 := by
  induction n generalizing c with
  | zero => exact Walk.keeps_pure ⟨rfl, rfl, .nil c⟩
  | succ n ih =>
      rw [readings_succ]
      refine ((expression_keeps hbound hc hdepth).mono ?_ (fun _ h => h)).bind ?_
      · rintro (e | b) hfails
        · show Except.bind _ _ = .error e
          rw [show c.reading = .error e from hfails]
          rfl
        · exact hfails
      rintro ⟨e, d⟩ hd
      rw [hd]
      have hspans := spans_of_reading hd
      refine ((ih (hspans.within hbound) hspans.depth_eq).mono ?_ (fun _ h => h)).bind ?_
      · rintro (err | b) hfails
        · show Except.map _ (d.readings n) = .error err
          rw [show d.readings n = .error err from hfails]
          rfl
        · exact hfails
      rintro ⟨es, d'⟩ ⟨hes, hlength, hall⟩
      refine Walk.keeps_pure ⟨?_, congrArg (· + 1) hlength, .cons hspans hall⟩
      show Except.map _ (d.readings n) = _
      rw [hes]
      rfl

theorem expressions_result (hdepth : c.depth = 0) (n : Nat) :
    (c.expressions n).result = unbroken _ (c.readings n) :=
  ((expressions_keeps (Nat.le_max_right c.height maxDepth)
    ⟨hdepth ▸ Nat.zero_le _, Nat.le_max_left _ _⟩ hdepth n).mono (fun _ h => h)
    (fun _ h => h.1)).result_eq

namespace SpansAll

variable {es : List Expr}

theorem depth_eq (h : c.SpansAll es d) (hdepth : c.depth = 0) : d.depth = 0 := by
  induction h with
  | nil => exact hdepth
  | cons hspans _ ih => exact ih hspans.depth_eq

theorem finish_eq (h : c.SpansAll es d) : d.finish = c.finish := by
  induction h with
  | nil => rfl
  | cons hspans _ ih => exact ih.trans hspans.finish_eq

theorem within (h : c.SpansAll es d) (hbound : maxDepth ≤ bound) (hc : c.Within bound) :
    d.Within bound := by
  induction h with
  | nil => exact hc
  | cons hspans _ ih => exact ih (hspans.within hbound)

theorem height_eq (h : c.SpansAll es d) :
    d.height = (es.getLast?.map Expr.height).getD c.height := by
  induction h with
  | nil => rfl
  | @cons c d d' e es hspans _ ih =>
      rw [ih, hspans.height_eq]
      cases es <;> rfl

/-- Each tree is spelled by tokens of its own, and none of them is an end marker. -/
theorem rest_eq (h : c.SpansAll es d) :
    ∃ runs : List (List Token), c.rest = runs.flatten ++ d.rest ∧
      List.Forall₂ (fun e w => w.map Token.terminal = e.yield) es runs ∧
      ∀ t ∈ runs.flatten, t.kind ≠ .endOfInput := by
  induction h with
  | nil => exact ⟨[], rfl, .nil, nofun⟩
  | cons hspans _ ih =>
      obtain ⟨w, hrest, hyield, hkind⟩ := hspans.rest_eq
      obtain ⟨runs, hrest', hyields, hkinds⟩ := ih
      refine ⟨w :: runs, ?_, .cons hyield hyields, fun t ht => ?_⟩
      · rw [hrest, hrest', List.flatten_cons, List.append_assoc]
      · rcases List.mem_append.mp ht with ht | ht
        · exact hkind t ht
        · exact hkinds t ht

end SpansAll

end Cursor

theorem yield_ne_nil (e : Expr) : e.yield ≠ [] := by
  cases e with
  | binary left op right => exact List.append_ne_nil_of_right_ne_nil _ (List.cons_ne_nil _ _)
  | _ => exact List.cons_ne_nil _ _

theorem finishOf_append {w rest : List Token} (hw : ∀ t ∈ w, t.kind ≠ .endOfInput) :
    finishOf (w ++ rest) = finishOf rest := by
  cases rest with
  | nil => rw [List.append_nil, finishOf_eq hw]; rfl
  | cons t ts => rw [finishOf, finishOf, List.getLast?_append_of_ne_nil _ (List.cons_ne_nil t ts)]

theorem getLast?_of_append {w rest : List Token} (hw : ∀ t ∈ w, t.kind ≠ .endOfInput) {t : Token}
    (h : (w ++ rest).getLast? = some t) (ht : t.kind = .endOfInput) : rest.getLast? = some t := by
  cases rest with
  | nil =>
      rw [List.append_nil] at h
      exact absurd ht (hw t (List.mem_of_getLast? h))
  | cons u us => rwa [List.getLast?_append_of_ne_nil _ (List.cons_ne_nil u us)] at h

namespace Cursor

/-- With nothing open, a cursor before the tokens at which a list ends is as good as a new one. -/
theorem result_eq_ofTokens {d : Cursor} (hdepth : d.depth = 0)
    (hfinish : d.finish = finishOf d.rest) :
    d.expression.result = (ofTokens d.rest).expression.result ∧
      d.parse.result = (ofTokens d.rest).parse.result := by
  have hparser : d.parser = (ofTokens d.rest).parser := by rw [parser, hfinish]; rfl
  rw [expression_result hdepth, parse_result hdepth, expression_result rfl, parse_result rfl,
    reading, reading, hparser]
  exact ⟨rfl, rfl⟩

end Cursor

/-- The calls of the grammar one after another do what the running parser does.  After any number
of them nothing is open, the height is that of the tree read last, and what was read is gone:
the next call does what it does at the beginning of the tokens that are left.  Any rule from
any cursor restores the depth, and what it comes to does not depend on the height. -/
theorem calls_leave_no_trace (ts : List Token) :
    ((Cursor.ofTokens ts).expression.result = unbroken Breach
        ((ofTokens ts).expression.map fun x => (x.1, Cursor.ofParser x.1 x.2)) ∧
      (Cursor.ofTokens ts).parse.result = unbroken Breach (LineCalc.parse ts)) ∧
    (∀ n es d, 0 < n → ((Cursor.ofTokens ts).expressions n).result = .ok (es, d) →
      d.depth = 0 ∧ (∃ e, es.getLast? = some e ∧ d.height = e.height) ∧
      (∃ runs : List (List Token), ts = runs.flatten ++ d.rest ∧ runs.length = n ∧
        List.Forall₂ (fun e w => w ≠ [] ∧ w.map Token.terminal = e.yield) es runs) ∧
      d.rest.length < ts.length ∧
      (∀ t ∈ ts, t.kind = .endOfInput → t ∈ d.rest) ∧
      (∀ t, ts.getLast? = some t → t.kind = .endOfInput → d.rest.getLast? = some t) ∧
      d.expression.result = (Cursor.ofTokens d.rest).expression.result ∧
      d.parse.result = (Cursor.ofTokens d.rest).parse.result) ∧
    (∀ (r : Rule) c e d, (r.parse c).result = .ok (e, d) → d.depth = c.depth) ∧
    (∀ (r : Rule) c height, (r.parse { c with height := height }).result = (r.parse c).result) := by
  refine ⟨⟨Cursor.expression_result rfl, Cursor.parse_result rfl⟩, ?_,
    fun _ _ _ _ h => (Rule.parse_ok h).1, fun r c height => ?_⟩
  · intro n es d hn hes
    have hkeeps := Cursor.expressions_keeps (c := Cursor.ofTokens ts) (Nat.le_refl maxDepth)
      ⟨Nat.zero_le _, Nat.zero_le _⟩ rfl n
    obtain ⟨-, rfl, hall⟩ := hkeeps.value (es, d) hes
    obtain ⟨runs, hts, hyields, hkinds⟩ := hall.rest_eq
    have hts : ts = runs.flatten ++ d.rest := hts
    have hdepth : d.depth = 0 := hall.depth_eq rfl
    have hfinish : d.finish = finishOf d.rest := by
      rw [← finishOf_append hkinds, ← hts]
      exact hall.finish_eq
    have hruns : List.Forall₂ (fun e w => w ≠ [] ∧ w.map Token.terminal = e.yield) es runs := by
      refine hyields.imp fun e w hw => ⟨?_, hw⟩
      rintro rfl
      exact yield_ne_nil e hw.symm
    refine ⟨hdepth, ?_, ⟨runs, hts, hyields.length_eq.symm, hruns⟩, ?_, fun t ht hkind => ?_,
      fun t ht hkind => ?_, Cursor.result_eq_ofTokens hdepth hfinish⟩
    · have hne : es ≠ [] := List.ne_nil_of_length_pos hn
      refine ⟨es.getLast hne, List.getLast?_eq_some_getLast hne, ?_⟩
      rw [hall.height_eq, List.getLast?_eq_some_getLast hne]
      rfl
    · have hpos : 0 < runs.flatten.length := by
        cases hruns with
        | nil => exact absurd hn (Nat.lt_irrefl 0)
        | @cons e w es runs hw _ =>
            rw [List.flatten_cons, List.length_append]
            exact Nat.add_pos_left (List.length_pos_iff.mpr hw.1) _
      rw [hts, List.length_append]
      exact Nat.lt_add_of_pos_left hpos
    · rw [hts] at ht
      exact (List.mem_append.mp ht).resolve_left fun hread => hkinds t hread hkind
    · rw [hts] at ht
      exact getLast?_of_append hkinds ht hkind
  · rw [Rule.parse_result, Rule.parse_result]
    exact congrArg _ (Rule.read_result_height r c.rest c.finish c.depth height c.height)

/-- After the calls that read `1` and `( 2 )`, the third one fails as at the beginning of the
tokens that are left. -/
theorem calls_leave_no_trace_of_three :
    let ts : List Token := [⟨.integer, "1", .start⟩, ⟨.leftParen, "(", .start⟩,
      ⟨.integer, "2", .start⟩, ⟨.rightParen, ")", .start⟩, ⟨.leftParen, "(", .start⟩,
      ⟨.integer, "3", .start⟩, Token.endAt .start]
    (∃ d, ((Rule.chain .equality).parse (Cursor.ofTokens ts)).result
        = .ok (.literal (.integer "1"), d) ∧ d.depth = (Cursor.ofTokens ts).depth) ∧
    ∃ d, 0 < 2 ∧ ((Cursor.ofTokens ts).expressions 2).result
        = .ok ([.literal (.integer "1"), .group (.literal (.integer "2"))], d) ∧
      d.depth = 0 ∧ d.height = 1 ∧ d.rest = ts.drop 4 ∧
      d.expression.result = (Cursor.ofTokens (ts.drop 4)).expression.result ∧
      d.expression.result = .error (.error (.mismatchedBracket (Token.endAt .start))) := by
  intro ts
  let c : Cursor := ⟨ts.drop 1, Token.endAt .start, 0, 0⟩
  let d : Cursor := ⟨ts.drop 4, Token.endAt .start, 0, 1⟩
  have hone : ((Rule.chain .equality).parse (Cursor.ofTokens ts)).result
      = .ok (.literal (.integer "1"), c) := (Cursor.expression_result rfl).trans rfl
  have htwo : ((Cursor.ofTokens ts).expressions 2).result
      = .ok ([.literal (.integer "1"), .group (.literal (.integer "2"))], d) :=
    (Cursor.expressions_result rfl 2).trans rfl
  obtain ⟨-, hcalls, hrules, -⟩ := calls_leave_no_trace ts
  obtain ⟨hdepth, -, -, -, -, -, hnext, -⟩ := hcalls 2 _ d Nat.two_pos htwo
  exact ⟨⟨c, hone, hrules _ _ _ c hone⟩, d, Nat.two_pos, htwo, hdepth, rfl, rfl, hnext,
    (Cursor.expression_result hdepth).trans rfl⟩

end LineCalc.Parser
