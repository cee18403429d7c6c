/-
# `LineCalc.Proofs.Provenance` — where texts come from

No stage makes a text up.  A scan draws every lexeme, and every text in an error, from the
characters of its source, a keyword in capitals (`DrawnFrom`).  The parser takes the
literals of a tree from tokens, and blames a token of its list or the one that stands for
the end of it.  And a string that is evaluated, or named in an error, is the text of a
string literal of the tree (`Expr.eval_isFrom`): strings pass through the evaluator and
are never built by it.
-/
import LineCalc.Proofs.Token.Cut
import LineCalc.Proofs.Parser.Blame
import LineCalc.Proofs.Expr.Typing

namespace LineCalc

/-! ## Scanning -/

/-- Every character of the text is one of `cs`, or the capital of one. -/
def DrawnFrom (cs : List Char) (text : String) : Prop :=
  ∀ c ∈ text.toList, c ∈ cs ∨ ∃ d ∈ cs, c = d.toUpper

theorem DrawnFrom.mono {cs ds : List Char} {text : String} (h : DrawnFrom cs text)
    (hsub : ∀ c ∈ cs, c ∈ ds) : DrawnFrom ds text := by
  intro c hc
  rcases h c hc with hmem | ⟨d, hd, hcap⟩
  · exact Or.inl (hsub c hmem)
  · exact Or.inr ⟨d, hsub d hd, hcap⟩

theorem drawnFrom_ofList {cs ds : List Char} (h : ∀ c ∈ ds, c ∈ cs) :
    DrawnFrom cs (String.ofList ds) := by
  intro c hc
  rw [String.toList_ofList] at hc
  exact Or.inl (h c hc)

namespace Token

theorem Kind.Writes.drawnFrom {kind : Kind} {lexeme : String} {text : List Char}
    (h : kind.Writes lexeme text) : DrawnFrom text lexeme := by
  intro c hc
  cases kind with
  | string =>
      obtain rfl : text = '"' :: (lexeme.toList ++ ['"']) := h
      exact Or.inl (List.mem_cons_of_mem _ (List.mem_append_left _ hc))
  | identifier =>
      have hupper : text.map Char.toUpper = lexeme.toList := h
      rw [← hupper] at hc
      obtain ⟨d, hd, hcap⟩ := List.mem_map.mp hc
      exact Or.inr ⟨d, hd, hcap.symm⟩
  | _ =>
      obtain rfl : text = lexeme.toList := h
      exact Or.inl hc

theorem mem_pieces_cut {cs : List Char} {piece : Piece} (h : piece ∈ (cut cs).pieces) :
    (∀ c ∈ piece.text, c ∈ cs) ∧ ∃ rest, piece.item.Fits piece.text rest := by
  obtain ⟨rest, hcuts, -⟩ := cuts_cut cs
  refine ⟨fun c hc => ?_, hcuts.fits_of_mem h⟩
  rw [hcuts.eq_append]
  exact List.mem_append_left _ (List.mem_flatMap.mpr ⟨piece, h, hc⟩)

def Event.item : Event → Item
  | token t => .token t.kind t.lexeme
  | stray c _ => .stray c

theorem mem_events {p : Position} {pieces : List Piece} {event : Event}
    (h : event ∈ events p pieces) : ∃ piece ∈ pieces, piece.item = event.item := by
  fun_induction events p pieces with
  | case1 => exact nomatch h
  | case2 p text rest ih =>
      obtain ⟨piece, hpiece, hitem⟩ := ih h
      exact ⟨piece, List.mem_cons_of_mem _ hpiece, hitem⟩
  | case3 p text kind lexeme rest ih =>
      rcases List.mem_cons.mp h with rfl | h
      · exact ⟨_, List.mem_cons_self, rfl⟩
      · obtain ⟨piece, hpiece, hitem⟩ := ih h
        exact ⟨piece, List.mem_cons_of_mem _ hpiece, hitem⟩
  | case4 p text c rest ih =>
      rcases List.mem_cons.mp h with rfl | h
      · exact ⟨_, List.mem_cons_self, rfl⟩
      · obtain ⟨piece, hpiece, hitem⟩ := ih h
        exact ⟨piece, List.mem_cons_of_mem _ hpiece, hitem⟩

/-- A token that a scan meets is drawn from the source. -/
theorem drawnFrom_of_mem_events {s : String} {t : Token}
    (h : .token t ∈ (Trace.ofSource s).events) : DrawnFrom s.toList t.lexeme := by
  obtain ⟨⟨text, item⟩, hpiece, rfl⟩ := mem_events h
  obtain ⟨htext, rest, hfits⟩ := mem_pieces_cut hpiece
  cases hfits with
  | token hadmits hwrites hend => exact hwrites.drawnFrom.mono htext

theorem isStray_of_mem_events {s : String} {c : Char} {place : Position}
    (h : .stray c place ∈ (Trace.ofSource s).events) : isStray c = true := by
  obtain ⟨⟨text, item⟩, hpiece, rfl⟩ := mem_events h
  obtain ⟨-, rest, hfits⟩ := mem_pieces_cut hpiece
  cases hfits with
  | stray hstray hrest => exact hstray

/-- The tokens of a text that scans, but for the end marker, are those the scan met. -/
theorem mem_of_scan {s : String} {ts : List Token} (h : scan s = .ok ts) {t : Token}
    (ht : t ∈ ts) : .token t ∈ (Trace.ofSource s).events ∨ ∃ place, t = endAt place := by
  cases houtcome : (Trace.ofSource s).outcome with
  | error e =>
      rw [scan, Trace.tokens, houtcome] at h
      cases h
  | ok place =>
      rw [scan, Trace.tokens, houtcome] at h
      obtain rfl := Except.ok.inj h
      rcases List.mem_append.mp ht with hmet | hend
      · obtain ⟨event, hevent, htoken⟩ := List.mem_filterMap.mp hmet
        cases event with
        | token u =>
            obtain rfl : u = t := Option.some.inj htoken
            exact Or.inl hevent
        | stray c place => cases htoken
      · exact Or.inr ⟨place, List.mem_singleton.mp hend⟩

/-! ### Faults -/

/-- The text of the source that a fault quotes. -/
def Fault.quote : Fault → String
  | unterminatedString text => text
  | unknownCharacter c => String.singleton c
  | unknownWord word => word

theorem Fault.Blames.drawnFrom {fault : Fault} {rest : List Char} (h : fault.Blames rest) :
    DrawnFrom rest fault.quote := by
  cases h with
  | unterminatedString _ => exact drawnFrom_ofList fun d hd => hd
  | @unknownWord c cs _ _ =>
      refine drawnFrom_ofList fun d hd => ?_
      rcases List.mem_cons.mp hd with rfl | hd
      · exact List.mem_cons_self
      · exact List.mem_cons_of_mem c ((List.takeWhile_subset _) hd)
  | @unknownCharacter c cs _ _ _ =>
      intro d hd
      rw [Fault.quote, String.toList_singleton] at hd
      rw [List.mem_singleton.mp hd]
      exact Or.inl List.mem_cons_self

/-- A fault quotes from the source. -/
theorem drawnFrom_of_fault {cs : List Char} {fault : Fault} (h : (cut cs).fault = some fault) :
    DrawnFrom cs fault.quote := by
  obtain ⟨rest, hcuts, hleaves⟩ := cuts_cut cs
  rw [h] at hleaves
  cases hleaves with
  | blamed hblames =>
      refine hblames.drawnFrom.mono fun c hc => ?_
      rw [hcuts.eq_append]
      exact List.mem_append_right _ hc

end Token

/-- The text of the source that a scan error quotes. -/
def ScanError.quote : ScanError → String
  | unterminatedString text _ => text
  | unknownCharacter c _ => String.singleton c
  | unknownIdentifier word _ => word

theorem Token.drawnFrom_of_error {s : String} {e : ScanError} (h : scan s = .error e) :
    DrawnFrom s.toList e.quote := by
  cases hfault : (cut s.toList).fault with
  | none =>
      rw [scan_eq hfault] at h
      exact nomatch h
  | some fault =>
      rw [scan_eq_error hfault] at h
      obtain rfl := Except.error.inj h
      have hdrawn := drawnFrom_of_fault hfault
      cases fault <;> exact hdrawn

/-! ## Parsing -/

def Expr.literals : Expr → List Literal
  | literal l => [l]
  | group e | unary _ e => e.literals
  | binary left _ right => left.literals ++ right.literals

theorem Expr.terminal_mem_yield {e : Expr} {l : Literal} (h : l ∈ e.literals) :
    l.terminal ∈ e.yield := by
  induction e with
  | literal l' =>
      obtain rfl := List.mem_singleton.mp h
      exact List.mem_singleton.mpr rfl
  | group e ih => exact List.mem_cons_of_mem _ (List.mem_append_left _ (ih h))
  | unary op e ih => exact List.mem_cons_of_mem _ (ih h)
  | binary left op right ihl ihr =>
      rcases List.mem_append.mp h with hl | hr
      · exact List.mem_append_left _ (ihl hl)
      · exact List.mem_append_right _ (List.mem_cons_of_mem _ (ihr hr))

namespace Parser

theorem mem_literals_of_parse {ts : List Token} {e : Expr} (h : LineCalc.parse ts = .ok e)
    {l : Literal} (hl : l ∈ e.literals) : ∃ t ∈ ts, t.terminal = l.terminal := by
  obtain ⟨-, -, u, z, hts, w, mark, last, rfl, hyield, -, -⟩ := parseWithin_eq_ok_iff.mp h
  have hmem := Expr.terminal_mem_yield hl
  rw [← hyield] at hmem
  obtain ⟨t, ht, hterminal⟩ := List.mem_map.mp hmem
  have hts : ts = w ++ mark ++ [last] ++ z := hts
  refine ⟨t, ?_, hterminal⟩
  rw [hts]
  exact List.mem_append_left _ (List.mem_append_left _ (List.mem_append_left _ ht))

theorem exists_token_of_literal {ts : List Token} {e : Expr} (h : LineCalc.parse ts = .ok e)
    {l : Literal} (hl : l ∈ e.literals) {k : Token.Kind} {lexeme : String}
    (hterminal : l.terminal = ⟨k, some lexeme⟩) : ∃ t ∈ ts, t.kind = k ∧ t.lexeme = lexeme := by
  obtain ⟨t, ht, hsame⟩ := mem_literals_of_parse h hl
  exact ⟨t, ht, Token.of_terminal_eq (hsame.trans hterminal)⟩

end Parser

def ParseError.token : ParseError → Token
  | mismatchedBracket t | unexpectedToken t | tooDeep t => t

namespace Parser

theorem finishOf_mem (ts : List Token) : finishOf ts ∈ ts ∨ finishOf ts = Token.endAt .start := by
  unfold finishOf
  split
  next t ht =>
    split
    next => exact Or.inl (List.mem_of_getLast? ht)
    next => exact Or.inr rfl
  next => exact Or.inr rfl

/-- A token that is blamed is one of the list, or the end of a text that holds nothing. -/
theorem mem_of_parse_error {ts : List Token} {e : ParseError}
    (h : LineCalc.parse ts = .error e) : e.token ∈ ts ∨ e.token = Token.endAt .start := by
  have hrejected : (∀ t, e ≠ .tooDeep t) →
      e.token ∈ ts ∨ e.token = Token.endAt .start := by
    intro hdeep
    obtain ⟨w, rest, hts, hrejects⟩ := rejects_of_error (p := ofTokens ts) h hdeep
    have hts : ts = w ++ rest := hts
    have htoken : e.token = rest.headD (finishOf ts) := by
      cases e with
      | tooDeep t => exact absurd rfl (hdeep t)
      | unexpectedToken t => exact hrejects.blamed (Or.inl rfl)
      | mismatchedBracket t => exact hrejects.blamed (Or.inr rfl)
    rw [htoken]
    cases rest with
    | nil => exact finishOf_mem ts
    | cons t rest =>
        rw [hts]
        exact Or.inl (List.mem_append_right _ List.mem_cons_self)
  cases e with
  | tooDeep t => exact Or.inl (State.run_tooDeep (run_of_parseWithin_tooDeep h)).1
  | unexpectedToken t => exact hrejected nofun
  | mismatchedBracket t => exact hrejected nofun

end Parser

/-! ## Evaluating -/

/-- Whether a value that is a string is the text of one of the literals. -/
def Value.IsFrom (ls : List Literal) : Value → Prop
  | string text => .string text ∈ ls
  | float _ | int _ | bool _ => True

/-- Whether the lexeme or the string that an error names is that of one of the literals. -/
def EvalError.IsFrom (ls : List Literal) : EvalError → Prop
  | notNumeric operand _ => operand.IsFrom ls
  | malformedNumber lexeme => .integer lexeme ∈ ls ∨ .float lexeme ∈ ls
  | divisionByZero => True

/-- Whether what a result holds is from one of the literals. -/
def ResultFrom (ls : List Literal) : Except EvalError Value → Prop
  | .ok v => v.IsFrom ls
  | .error e => e.IsFrom ls

namespace ResultFrom

variable {ls ls' : List Literal} {r : Except EvalError Value}

theorem mono (hsub : ls ⊆ ls') (h : ResultFrom ls r) : ResultFrom ls' r := by
  have hvalue : ∀ {v : Value}, v.IsFrom ls → v.IsFrom ls' := by
    intro v hv
    cases v with
    | string text => exact hsub hv
    | float x | int n | bool b => trivial
  cases r with
  | ok v => exact hvalue h
  | error e =>
      cases e with
      | notNumeric operand operator => exact hvalue h
      | malformedNumber lexeme => exact Or.imp (hsub ·) (hsub ·) h
      | divisionByZero => trivial

theorem bind {f : Value → Except EvalError Value} (h : ResultFrom ls r)
    (hf : ∀ v, v.IsFrom ls → ResultFrom ls (f v)) : ResultFrom ls (r >>= f) := by
  cases r with
  | ok v => exact hf v h
  | error e => exact h

theorem number {v : Value} {o : Operator} {f : Float → Except EvalError Value}
    (h : v.IsFrom ls) (hf : ∀ x, ResultFrom ls (f x)) : ResultFrom ls (v.number o >>= f) := by
  cases v with
  | string text => exact h
  | float x | int n | bool b => exact hf _

end ResultFrom

section
variable {ls : List Literal}

theorem Value.IsFrom.normalize {v : Value} (h : v.IsFrom ls) : v.normalize.IsFrom ls := by
  cases v with
  | string text => exact h
  | float x | int n | bool b => trivial

theorem UnaryOp.apply_isFrom (op : UnaryOp) {v : Value} (h : v.IsFrom ls) :
    ResultFrom ls (op.apply v) := by
  refine .number h fun x => ?_
  cases op <;> trivial

namespace BinaryOp

theorem numbers_isFrom {left right : Value} {o : Operator}
    {f : Float → Float → Except EvalError Value} (hl : left.IsFrom ls) (hr : right.IsFrom ls)
    (hf : ∀ x y, ResultFrom ls (f x y)) :
    ResultFrom ls (do f (← left.number o) (← right.number o)) := by
  refine .number hl fun x => ?_
  refine .number hr fun y => ?_
  exact hf x y

theorem apply_isFrom (op : BinaryOp) {left right : Value} (hl : left.IsFrom ls)
    (hr : right.IsFrom ls) : ResultFrom ls (op.apply left right) := by
  cases op with
  | compute a => exact numbers_isFrom hl hr fun x y => trivial
  | rem =>
      refine numbers_isFrom hl hr fun x y => ?_
      by_cases hzero : Double.toInt64 y = 0
      · rw [if_pos hzero]
        trivial
      · rw [if_neg hzero]
        trivial
  | relate r =>
      by_cases hstrings : left.ty = .string ∧ right.ty = .string
      · cases left <;> cases right <;> trivial
      · show ResultFrom ls (relation r left right)
        rw [relation_of_not_strings r hstrings]
        exact numbers_isFrom hl hr fun x y => trivial

end BinaryOp

end

theorem Literal.eval_isFrom (l : Literal) : ResultFrom [l] l.eval := by
  have hl : l ∈ [l] := List.mem_singleton.mpr rfl
  cases l with
  | integer lexeme =>
      cases hn : Decimal.int64? lexeme with
      | none =>
          rw [eval_integer_of_none hn]
          exact Or.inl hl
      | some n =>
          rw [eval_integer_of_some hn]
          trivial
  | float lexeme =>
      cases hx : Decimal.double? lexeme with
      | none =>
          rw [eval_float_of_none hx]
          exact Or.inr hl
      | some x =>
          rw [eval_float_of_some hx]
          trivial
  | string text => exact hl
  | bool b => trivial

/-- What an expression evaluates to, or fails with, holds no text but those of its literals. -/
theorem Expr.eval_isFrom (e : Expr) : ResultFrom e.literals e.eval := by
  induction e with
  | literal l => exact l.eval_isFrom
  | group e ih =>
      show ResultFrom e.literals (e.eval.map Value.normalize)
      cases heval : e.eval with
      | error err => rw [heval] at ih; exact ih
      | ok v =>
          rw [heval] at ih
          exact Value.IsFrom.normalize ih
  | unary op e ih => exact ih.bind fun v hv => op.apply_isFrom hv
  | binary left op right ihl ihr =>
      have hl := ihl.mono (List.subset_append_left left.literals right.literals)
      have hr := ihr.mono (List.subset_append_right left.literals right.literals)
      refine hl.bind fun v hv => ?_
      refine hr.bind fun w hw => ?_
      exact op.apply_isFrom hv hw

theorem Expr.value_isFrom {e : Expr} {v : Value} (h : e.eval = .ok v) : v.IsFrom e.literals := by
  have hfrom := e.eval_isFrom
  rwa [h] at hfrom

theorem Expr.error_isFrom {e : Expr} {err : EvalError} (h : e.eval = .error err) :
    err.IsFrom e.literals := by
  have hfrom := e.eval_isFrom
  rwa [h] at hfrom

end LineCalc
