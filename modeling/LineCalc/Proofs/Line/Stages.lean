/-
# `LineCalc.Proofs.Line.Stages` — a line, stage by stage

How far a line gets is told by its stages one after the other (`Progress.Of`), and it has a
value exactly if every stage gives what the next one takes (`run_eq_ok_iff`).

Between the stages something is known of what is handed on.  The tokens of a text end with
the one end marker among them, so the parser takes all of them or none: a text is parsed
exactly if its tokens are a sentence (`parse_eq_ok_iff_of_scan`).
-/
import LineCalc.Line
import LineCalc.Proofs.Parser.Complete
import LineCalc.Proofs.Parser.Terminals
import LineCalc.Proofs.Token.Scan

namespace LineCalc

/-! ## Progress -/

/-- `Progress.Of source p`: the progress `p` is what the stages give for the source. -/
inductive Progress.Of (source : String) : Progress → Prop
  | unscanned {e : ScanError} : Token.scan source = .error e → Of source (.unscanned e)
  | unparsed {ts : List Token} {e : ParseError} :
      Token.scan source = .ok ts → parse ts = .error e → Of source (.unparsed ts e)
  | unevaluated {ts : List Token} {tree : Expr} {e : EvalError} :
      Token.scan source = .ok ts → parse ts = .ok tree → tree.eval = .error e →
      Of source (.unevaluated ts tree e)
  | evaluated {ts : List Token} {tree : Expr} {v : Value} :
      Token.scan source = .ok ts → parse ts = .ok tree → tree.eval = .ok v →
      Of source (.evaluated ts tree v)

theorem Account.progress_of (source : String) :
    Progress.Of source (Account.ofSource source).progress := by
  show Progress.Of source (.ofScan (Token.scan source))
  cases hscan : Token.scan source with
  | error e => exact .unscanned hscan
  | ok ts =>
      simp only [Progress.ofScan, Progress.ofTokens]
      cases hparse : parse ts with
      | error e => exact .unparsed hscan hparse
      | ok tree =>
          simp only [Progress.ofTree]
          cases heval : tree.eval with
          | error e => exact .unevaluated hscan hparse heval
          | ok v => exact .evaluated hscan hparse heval

section
variable {source : String}

theorem run_eq (source : String) : run source = (Progress.ofScan (Token.scan source)).result := rfl

theorem run_eq_ok_iff {v : Value} :
    run source = .ok v ↔ ∃ ts tree, Token.scan source = .ok ts ∧ parse ts = .ok tree ∧
      tree.eval = .ok v := by
  constructor
  · intro h
    have hprogress := Account.progress_of source
    unfold run at h
    generalize (Account.ofSource source).progress = p at hprogress h
    cases hprogress with
    | unscanned _ | unparsed _ _ | unevaluated _ _ _ => exact nomatch h
    | evaluated hscan hparse heval =>
        obtain rfl := Except.ok.inj h
        exact ⟨_, _, hscan, hparse, heval⟩
  · rintro ⟨ts, tree, hscan, hparse, heval⟩
    rw [run_eq, hscan]
    simp only [Progress.ofScan, Progress.ofTokens, hparse, Progress.ofTree, heval]
    rfl

theorem run_eq_eval_error_iff {e : EvalError} :
    run source = .error (.eval e) ↔ ∃ ts tree, Token.scan source = .ok ts ∧ parse ts = .ok tree ∧
      tree.eval = .error e := by
  constructor
  · intro h
    have hprogress := Account.progress_of source
    unfold run at h
    generalize (Account.ofSource source).progress = p at hprogress h
    cases hprogress with
    | unscanned _ | unparsed _ _ | evaluated _ _ _ => exact nomatch h
    | unevaluated hscan hparse heval =>
        obtain rfl := LineError.eval.inj (Except.error.inj h)
        exact ⟨_, _, hscan, hparse, heval⟩
  · rintro ⟨ts, tree, hscan, hparse, heval⟩
    rw [run_eq, hscan]
    simp only [Progress.ofScan, Progress.ofTokens, hparse, Progress.ofTree, heval]
    rfl

/-- The errors of two lines are alike: scan errors that `S` relates, parse errors for one reason at
tokens that `R` relates, or the same evaluation error. -/
inductive LineError.Parallel (S : ScanError → ScanError → Prop) (R : Token → Token → Prop) :
    LineError → LineError → Prop
  | scan {e e' : ScanError} : S e e' → Parallel S R (.scan e) (.scan e')
  | parse {e e' : ParseError} : e.Parallel R e' → Parallel S R (.parse e) (.parse e')
  | eval {e : EvalError} : Parallel S R (.eval e) (.eval e)

theorem LineError.Parallel.mono {S : ScanError → ScanError → Prop} {R R' : Token → Token → Prop}
    (hR : ∀ {t u}, R t u → R' t u) {e e' : LineError} (h : e.Parallel S R e') :
    e.Parallel S R' e' := by
  cases h with
  | scan he => exact .scan he
  | parse he => exact .parse (he.mono hR)
  | eval => exact .eval

theorem result_parallel {S : ScanError → ScanError → Prop} {R : Token → Token → Prop}
    {ts us : List Token} (h : SideBySide (ParseError.Parallel R) Eq (parse ts) (parse us)) :
    SideBySide (LineError.Parallel S R) Eq (Progress.ofTokens ts).result
      (Progress.ofTokens us).result := by
  unfold Progress.ofTokens
  generalize parse ts = x at h ⊢
  generalize parse us = y at h ⊢
  cases h with
  | error he => exact .error (.parse he)
  | @ok tree _ htree =>
      subst htree
      simp only [Progress.ofTree]
      cases tree.eval with
      | ok v => exact .ok rfl
      | error e => exact .error .eval

/-! ## From the scan to the parser -/

theorem run_of_scan {ts : List Token} (h : Token.scan source = .ok ts) :
    run source = (Progress.ofTokens ts).result := by
  rw [run_eq, h]
  rfl

/-- Of the tokens of a text only the terminals count: texts with the same ones have the same value,
or fail alike at the same index. -/
theorem run_parallel {source' : String} {ts us : List Token} (S : ScanError → ScanError → Prop)
    (hts : Token.scan source = .ok ts) (hus : Token.scan source' = .ok us)
    (h : ts.map Token.terminal = us.map Token.terminal) :
    SideBySide (LineError.Parallel S (Parser.AtSameIndex ts us)) Eq (run source) (run source') := by
  obtain ⟨body, place, htokens, -⟩ := Token.layout_of_scan hts
  obtain ⟨body', place', htokens', -⟩ := Token.layout_of_scan hus
  have hlast : ts.getLast? = some (.endAt place) := htokens ▸ List.getLast?_concat
  have hlast' : us.getLast? = some (.endAt place') := htokens' ▸ List.getLast?_concat
  rw [run_of_scan hts, run_of_scan hus]
  exact result_parallel (Parser.parse_parallel h hlast hlast' rfl)

/-- A sentence among tokens that hold no end marker but their last is all of them. -/
theorem eq_of_isSentence_append {e : Expr} {u z body : List Token} {last : Token}
    (hu : IsSentence e u) (hbody : ∀ t ∈ body, t.kind ≠ .endOfInput)
    (h : body ++ [last] = u ++ z) : body ++ [last] = u := by
  obtain ⟨w, mark, t, rfl, -, -, ht⟩ := hu
  rcases List.eq_nil_or_concat z with rfl | ⟨z, x, rfl⟩
  · rw [h, List.append_nil]
  -- otherwise the end marker of the sentence is one of the tokens before the last
  · rw [List.concat_eq_append, ← List.append_assoc] at h
    obtain ⟨rfl, -⟩ := List.append_inj' h rfl
    have hmem : t ∈ w ++ mark ++ [t] ++ z :=
      List.mem_append_left _ (List.mem_append_right _ (List.mem_singleton.mpr rfl))
    exact absurd ht (hbody t hmem)

/-- The tokens of a text are parsed to a tree exactly if they spell it, all of them. -/
theorem parse_eq_ok_iff_of_scan {ts : List Token} {e : Expr} (h : Token.scan source = .ok ts) :
    parse ts = .ok e ↔ e.Conformant ∧ e.height ≤ 256 ∧ IsSentence e ts := by
  obtain ⟨body, place, rfl, hlayout⟩ := Token.layout_of_scan h
  have hparse : parse (body ++ [.endAt place]) = .ok e ↔ _ := Parser.parseWithin_eq_ok_iff
  rw [hparse]
  refine and_congr_right fun _ => and_congr decide_eq_true_iff ?_
  constructor
  · rintro ⟨u, z, hts, hu⟩
    have hts : body ++ [.endAt place] = u ++ z := hts
    rwa [eq_of_isSentence_append hu hlayout.kind_ne hts]
  · intro hsentence
    exact ⟨_, [], (List.append_nil _).symm, hsentence⟩

end

end LineCalc
