/-
# `LineCalc.Proofs.Session.OneLine` — every notice is one line

A session writes its notices one below the other, so whoever reads them back has to know
that none of them runs over several lines.  What could break a line is a text from the
source, and a source that is one line itself holds no line feed: the texts that records
and errors quote are drawn from it (`LineCalc.Proofs.Provenance`), and everything around
them is numbers, operators and words without one.
-/
import LineCalc.Proofs.Provenance
import LineCalc.Proofs.Text.Lines
import LineCalc.Proofs.Line.Stages
import LineCalc.Session.Report

namespace LineCalc

open Text

/-! ## Numbers -/

namespace Decimal

theorem feed_not_mem_digits (n : Nat) : '\n' ∉ digits n := by
  intro h
  exact absurd (Nat.isDigit_of_mem_toDigits (by decide) (by decide) h) (by decide)

theorem oneLine_ofNat (n : Nat) : OneLine (ofNat n) := oneLine_ofList.mpr (feed_not_mem_digits n)

theorem oneLine_ofInt (n : Int) : OneLine (ofInt n) := by
  cases n with
  | ofNat n => exact oneLine_ofNat n
  | negSucc n => exact oneLine_append.mpr ⟨by decide, oneLine_ofNat _⟩

theorem feed_not_mem_dropTrailingZeros {ds : List Char} (h : '\n' ∉ ds) :
    '\n' ∉ dropTrailingZeros ds := by
  intro hmem
  rw [dropTrailingZeros, List.mem_reverse] at hmem
  exact h (List.mem_reverse.mp ((List.dropWhile_sublist _).subset hmem))

namespace Layout

theorem feed_not_mem_positional {ds : List Char} (h : '\n' ∉ ds) (k : Int) :
    '\n' ∉ positional ds k := by
  cases k with
  | negSucc n => simp [positional, h]
  | ofNat n =>
      have htake : '\n' ∉ ds.take (n + 1) := fun hmem => h (List.mem_of_mem_take hmem)
      have hdrop : '\n' ∉ ds.drop (n + 1) := fun hmem => h (List.mem_of_mem_drop hmem)
      simp only [positional]
      split <;> simp [htake, hdrop]

theorem feed_not_mem_scientific {ds : List Char} (h : '\n' ∉ ds) (k : Int) :
    '\n' ∉ scientific ds k := by
  have hexponent : '\n' ∉ (ofInt k).toList := oneLine_ofInt k
  unfold scientific
  dsimp only
  split
  next d e rest =>
    simp only [List.mem_cons, not_or] at h
    simp [h, hexponent]
  next => simp [h, hexponent]

theorem feed_not_mem_write (l : Layout) (d : Nat) (k : Int) : '\n' ∉ l.write d k := by
  have hdigits := feed_not_mem_dropTrailingZeros (feed_not_mem_digits d)
  simp only [write]
  split
  · exact feed_not_mem_positional hdigits _
  · exact feed_not_mem_scientific hdigits _

end Layout

end Decimal

theorem Value.oneLine_renderFloat (x : Float) : OneLine (renderFloat x) := by
  unfold renderFloat
  split
  next => decide
  next s _ => cases Double.isMinus s <;> decide
  next s _ => cases Double.isMinus s <;> decide
  next s m q _ _ =>
    refine oneLine_append.mpr ⟨?_, ?_⟩
    · cases Double.isMinus s <;> decide
    · exact oneLine_ofList.mpr (Decimal.Layout.feed_not_mem_write _ _ _)

/-! ## Tokens and trees -/

theorem Token.Kind.oneLine_name (kind : Kind) : OneLine kind.name := by
  cases kind with
  | bool b => cases b <;> decide
  | _ => decide

theorem Token.oneLine_display {t : Token} (h : OneLine t.lexeme) : OneLine t.display := by
  have hword : OneLine (if t.isEnd then "EOF" else t.lexeme) := by
    split
    · decide
    · exact h
  simp only [display, oneLine_append, Decimal.oneLine_ofNat, hword, and_true]
  decide

theorem UnaryOp.oneLine_symbol (op : UnaryOp) : OneLine op.symbol := by
  cases op <;> decide

theorem BinaryOp.oneLine_symbol (op : BinaryOp) : OneLine op.symbol := by
  cases op with
  | relate r => cases r <;> decide
  | compute a => cases a <;> decide
  | rem => decide

theorem oneLine_truthWord (b : Bool) : OneLine (truthWord b) := by
  cases b <;> decide

theorem oneLine_quoted {text : String} (h : OneLine text) : OneLine (quoted text) := by
  simp only [quoted, oneLine_append, h, and_true]
  decide

theorem Expr.oneLine_render {e : Expr} (h : ∀ l ∈ e.literals, OneLine l.render) :
    OneLine e.render := by
  induction e with
  | literal l => exact h l (List.mem_singleton.mpr rfl)
  | group e ih =>
      simp only [render, oneLine_append, ih h, and_true]
      decide
  | unary op e ih =>
      simp only [render, oneLine_append, op.oneLine_symbol, ih h, and_true]
      decide
  | binary left op right ihl ihr =>
      have hl := ihl fun l hl => h l (List.mem_append_left _ hl)
      have hr := ihr fun l hr => h l (List.mem_append_right _ hr)
      simp only [render, oneLine_append, op.oneLine_symbol, hl, hr, and_true]
      decide

/-! ## Values and errors -/

section
variable {ls : List Literal}

theorem Value.oneLine_render {v : Value} (hv : v.IsFrom ls) (hls : ∀ l ∈ ls, OneLine l.render) :
    OneLine v.render := by
  cases v with
  | float x => exact oneLine_renderFloat x
  | int n => exact Decimal.oneLine_ofInt _
  | string text => exact hls _ hv
  | bool b => exact oneLine_truthWord b

theorem EvalError.oneLine_message {e : EvalError} (he : e.IsFrom ls)
    (hls : ∀ l ∈ ls, OneLine l.render) : OneLine e.message := by
  cases e with
  | notNumeric operand operator =>
      have hoperand := Value.oneLine_render he hls
      have hsymbol : OneLine operator.symbol := by
        cases operator with
        | unary op => exact op.oneLine_symbol
        | binary op => exact op.oneLine_symbol
      -- by definition: rewriting with the equations of `message` evaluates its literals
      dsimp only [message]
      simp only [oneLine_append, hoperand, hsymbol, and_true]
      decide
  | malformedNumber lexeme =>
      have hlexeme : OneLine lexeme := by
        rcases he with he | he <;> exact hls _ he
      dsimp only [message]
      simp only [oneLine_append, hlexeme, and_true]
      decide
  | divisionByZero => decide

end

theorem ScanError.oneLine_message {e : ScanError} (h : OneLine e.quote) : OneLine e.message := by
  cases e with
  | unterminatedString text line =>
      have htext : OneLine text := h
      dsimp only [message]
      simp only [oneLine_append, Decimal.oneLine_ofNat, htext, and_true]
      decide
  | unknownCharacter c place =>
      have hc : OneLine (String.singleton c) := h
      dsimp only [message]
      simp only [oneLine_append, Decimal.oneLine_ofNat, hc, and_true]
      decide
  | unknownIdentifier word line =>
      have hword : OneLine word := h
      dsimp only [message]
      simp only [oneLine_append, Decimal.oneLine_ofNat, hword, and_true]
      decide

theorem ParseError.oneLine_message {e : ParseError} (h : OneLine e.token.lexeme) :
    OneLine e.message := by
  have hdisplay := Token.oneLine_display h
  cases e <;>
    dsimp only [message, token] at hdisplay ⊢ <;>
    simp only [oneLine_append, hdisplay, and_true] <;>
    decide

/-! ## The account of a line -/

section
variable {source : String}

theorem feed_of_toUpper {c : Char} (h : c.toUpper = '\n') : c = '\n' := by
  unfold Char.toUpper at h
  split at h
  next hletter =>
    have hval := congrArg (fun d => d.val.toNat) h
    have hlow := UInt32.le_iff_toNat_le.mp hletter.1
    have hhigh := UInt32.le_iff_toNat_le.mp hletter.2
    simp at hval hlow hhigh
    omega
  next => exact h

/-- What is drawn from one line is one line. -/
theorem oneLine_of_drawnFrom {text : String} (h : OneLine source)
    (hdrawn : DrawnFrom source.toList text) : OneLine text := by
  intro hfeed
  rcases hdrawn _ hfeed with hmem | ⟨c, hc, hcap⟩
  · exact h hmem
  · rw [feed_of_toUpper hcap.symm] at hc
    exact h hc

theorem oneLine_endAt (place : Position) : OneLine (Token.endAt place).lexeme := by
  show OneLine ""
  decide

theorem oneLine_lexeme (h : OneLine source) {ts : List Token} (hscan : Token.scan source = .ok ts)
    {t : Token} (ht : t ∈ ts) : OneLine t.lexeme := by
  rcases Token.mem_of_scan hscan ht with hevent | ⟨place, rfl⟩
  · exact oneLine_of_drawnFrom h (Token.drawnFrom_of_mem_events hevent)
  · exact oneLine_endAt place

theorem oneLine_literal (h : OneLine source) {ts : List Token}
    (hscan : Token.scan source = .ok ts) {tree : Expr} (hparse : parse ts = .ok tree) :
    ∀ l ∈ tree.literals, OneLine l.render := by
  intro l hl
  obtain ⟨t, ht, hterminal⟩ := Parser.mem_literals_of_parse hparse hl
  have hlexeme := oneLine_lexeme h hscan ht
  have hl := Literal.ofToken?_eq_some_iff.mpr hterminal
  unfold Literal.ofToken? at hl
  split at hl
  next =>
    obtain rfl := Option.some.inj hl
    exact hlexeme
  next =>
    obtain rfl := Option.some.inj hl
    exact hlexeme
  next =>
    obtain rfl := Option.some.inj hl
    exact oneLine_quoted hlexeme
  next b _ =>
    obtain rfl := Option.some.inj hl
    exact oneLine_truthWord b
  next => exact nomatch hl

theorem oneLine_error (h : OneLine source) {e : LineError} (hrun : run source = .error e) :
    OneLine e.message := by
  have hprogress := Account.progress_of source
  unfold run at hrun
  generalize (Account.ofSource source).progress = p at hprogress hrun
  cases hprogress with
  | unscanned hscan =>
      obtain rfl := Except.error.inj hrun
      have hquote := oneLine_of_drawnFrom h (Token.drawnFrom_of_error hscan)
      exact oneLine_append.mpr ⟨by decide, ScanError.oneLine_message hquote⟩
  | unparsed hscan hparse =>
      obtain rfl := Except.error.inj hrun
      refine oneLine_append.mpr ⟨by decide, ParseError.oneLine_message ?_⟩
      rcases Parser.mem_of_parse_error hparse with htoken | htoken
      · exact oneLine_lexeme h hscan htoken
      · rw [htoken]
        exact oneLine_endAt _
  | unevaluated hscan hparse heval =>
      obtain rfl := Except.error.inj hrun
      have hliteral := oneLine_literal h hscan hparse
      have hmessage := EvalError.oneLine_message (Expr.error_isFrom heval) hliteral
      exact oneLine_append.mpr ⟨by decide, hmessage⟩
  | evaluated hscan hparse heval => exact nomatch hrun

theorem Log.Level.oneLine_name (level : Level) : OneLine level.name := by
  cases level <;> decide

theorem Log.Record.oneLine_line {r : Record} (h : OneLine r.text) : OneLine r.line := by
  simp only [line, oneLine_append, r.level.oneLine_name, h, and_true]
  decide

theorem oneLine_event (h : OneLine source) {event : Token.Event}
    (hevent : event ∈ (Token.Trace.ofSource source).events) :
    OneLine (Log.Record.ofEvent event).line := by
  refine Log.Record.oneLine_line ?_
  cases event with
  | token t =>
      have hlexeme := oneLine_of_drawnFrom h (Token.drawnFrom_of_mem_events hevent)
      show OneLine ("scanned " ++ t.kind.name ++ " " ++ t.display)
      simp only [oneLine_append, t.kind.oneLine_name, Token.oneLine_display hlexeme, and_true]
      decide
  | stray c place =>
      have hc : OneLine (String.singleton c) := by
        intro hfeed
        rw [String.toList_singleton] at hfeed
        have hstray := Token.isStray_of_mem_events hevent
        rw [← List.mem_singleton.mp hfeed] at hstray
        exact absurd hstray (by decide)
      dsimp only [Log.Record.ofEvent, Log.Record.text]
      simp only [oneLine_append, hc, Decimal.oneLine_ofNat, and_true]
      decide

theorem oneLine_record (h : OneLine source) {r : Log.Record} (hr : r ∈ records source) :
    OneLine r.line := by
  rcases List.mem_append.mp hr with hmet | hstage
  · obtain ⟨event, hevent, rfl⟩ := List.mem_map.mp hmet
    exact oneLine_event h hevent
  · refine Log.Record.oneLine_line ?_
    have hprogress := Account.progress_of source
    generalize (Account.ofSource source).progress = p at hprogress hstage
    cases hprogress with
    | unscanned hscan => exact nomatch hstage
    | unparsed hscan hparse => exact nomatch hstage
    | unevaluated hscan hparse heval =>
        obtain rfl := List.mem_singleton.mp hstage
        have htree := Expr.oneLine_render (oneLine_literal h hscan hparse)
        exact oneLine_append.mpr ⟨by decide, htree⟩
    | evaluated hscan hparse heval =>
        have hliteral := oneLine_literal h hscan hparse
        have htree := Expr.oneLine_render hliteral
        have hvalue := Value.oneLine_render (Expr.value_isFrom heval) hliteral
        simp only [Progress.records, List.mem_cons, List.not_mem_nil, or_false] at hstage
        rcases hstage with rfl | rfl
        · exact oneLine_append.mpr ⟨by decide, htree⟩
        · dsimp only [Log.Record.text]
          simp only [oneLine_append, htree, hvalue, and_true]
          decide

end

/-! ## Notices -/

namespace Session

theorem Notice.oneLine_numberedLine {n : Notice} (h : OneLine n.line) :
    OneLine n.numberedLine := by
  cases n with
  | record r => exact h
  | failure number e =>
      have hmessage : OneLine e.message := h
      simp only [numberedLine, oneLine_append, Decimal.oneLine_ofNat, hmessage, and_true]
      decide

/-- The notices of a line are one line each. -/
theorem Options.oneLine_notices {source : String} (h : OneLine source) (o : Options)
    (number : Nat) {n : Notice} (hn : n ∈ o.notices number (.ofSource source)) :
    OneLine n.line := by
  rcases List.mem_append.mp hn with hrecord | hfailure
  · obtain ⟨r, hr, rfl⟩ := List.mem_map.mp hrecord
    exact oneLine_record h (List.mem_of_mem_filter hr)
  · have hresult : (Account.ofSource source).progress.result = run source := rfl
    rw [hresult] at hfailure
    cases hrun : run source with
    | ok v =>
        rw [hrun] at hfailure
        exact nomatch hfailure
    | error e =>
        rw [hrun] at hfailure
        obtain rfl := List.mem_singleton.mp hfailure
        exact oneLine_error h hrun

end Session

end LineCalc
