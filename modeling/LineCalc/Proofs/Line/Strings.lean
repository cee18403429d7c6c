/-
# `LineCalc.Proofs.Line.Strings` — strings are never built

No operator gives a string, and a grouping hands one on as it is.  So an expression has a
string for a value only if it is a string literal in some groupings, and a line only if it is
such an expression written out: brackets, the string between its quotes, as many brackets
again.  The text of the string then stands in the line as it is (`run_eq_string_iff`).
-/
import LineCalc.Proofs.Line.Stages
import LineCalc.Proofs.Expr.Typing

namespace LineCalc

/-! ## Expressions whose value is a string -/

theorem UnaryOp.ty?_ne_string (op : UnaryOp) (τ : Ty) : op.ty? τ ≠ some .string := by
  cases op <;> cases τ <;> exact nofun

theorem BinaryOp.ty?_ne_string (op : BinaryOp) (σ τ : Ty) : op.ty? σ τ ≠ some .string := by
  cases op <;> cases σ <;> cases τ <;> exact nofun

namespace Expr

theorem eq_nest_of_ty? {e : Expr} (h : e.ty? = some .string) :
    ∃ text k, e = nest (.literal (.string text)) k := by
  induction e with
  | literal l =>
      cases l with
      | string text => exact ⟨text, 0, rfl⟩
      | integer lexeme | float lexeme | bool b => exact nomatch h
  | group e ih =>
      obtain ⟨τ, hτ, hgrouped⟩ := Option.map_eq_some_iff.mp h
      rw [Ty.grouped_eq_string_iff.mp hgrouped] at hτ
      obtain ⟨text, k, rfl⟩ := ih hτ
      exact ⟨text, k + 1, rfl⟩
  | unary op e ih =>
      obtain ⟨τ, -, hop⟩ := Option.bind_eq_some_iff.mp h
      exact absurd hop (op.ty?_ne_string τ)
  | binary left op right ihl ihr =>
      obtain ⟨σ, -, hright⟩ := Option.bind_eq_some_iff.mp h
      obtain ⟨τ, -, hop⟩ := Option.bind_eq_some_iff.mp hright
      exact absurd hop (op.ty?_ne_string σ τ)

theorem eval_nest_string (text : String) (k : Nat) :
    (nest (.literal (.string text)) k).eval = .ok (.string text) := by
  induction k with
  | zero => rfl
  | succ k ih =>
      show (eval (nest _ k)).map Value.normalize = _
      rw [ih]
      rfl

/-- Only a string literal, in groupings, evaluates to a string, and it does so to its own. -/
theorem eval_eq_string_iff {e : Expr} {text : String} :
    e.eval = .ok (.string text) ↔ ∃ k, e = nest (.literal (.string text)) k := by
  constructor
  · intro h
    have hsuits := e.eval_suits
    rw [h] at hsuits
    obtain ⟨text', k, rfl⟩ := eq_nest_of_ty? hsuits.ty_eq
    rw [eval_nest_string] at h
    obtain rfl : text' = text := by injection h with h; injection h
    exact ⟨k, rfl⟩
  · rintro ⟨k, rfl⟩
    exact eval_nest_string text k

end Expr

/-! ## Lines whose value is a string -/

/-- The text of a string token stands in the source, between quotes. -/
theorem Token.Layout.quoted_of_mem {cs : List Char} {ts : List Token} (h : Layout cs ts)
    {t : Token} (ht : t ∈ ts) (hkind : t.kind = .string) :
    '"' ∉ t.lexeme.toList ∧
      ∃ before after, cs = before ++ ('"' :: t.lexeme.toList ++ '"' :: after) := by
  induction h with
  | nil => exact nomatch ht
  | gap _ _ ih =>
      obtain ⟨hquote, before, after, rfl⟩ := ih ht
      exact ⟨hquote, _ :: before, after, rfl⟩
  | @token u text cs ts hadmits hwrites _ _ ih =>
      rcases List.mem_cons.mp ht with rfl | ht
      · rw [hkind] at hadmits hwrites
        obtain rfl : text = '"' :: (t.lexeme.toList ++ ['"']) := hwrites
        refine ⟨hadmits, [], cs, ?_⟩
        simp
      · obtain ⟨hquote, before, after, rfl⟩ := ih ht
        exact ⟨hquote, text ++ before, after, (List.append_assoc _ _ _).symm⟩

/-- The value of a line is a string exactly if the line is this string between equally many
brackets on both sides, at most 256; and then the string stands in the line as it is. -/
theorem run_eq_string_iff (source text : String) :
    (run source = .ok (.string text) ↔
      ∃ ts k mark, Token.scan source = .ok ts ∧ k ≤ 256 ∧
        (mark = [] ∨ mark = [Terminal.sign .endOfStatement]) ∧
        ts.map Token.terminal = List.replicate k (Terminal.sign .leftParen)
          ++ [⟨.string, some text⟩] ++ List.replicate k (Terminal.sign .rightParen)
          ++ mark ++ [Terminal.sign .endOfInput]) ∧
    (run source = .ok (.string text) → '"' ∉ text.toList ∧
      ∃ before after, source.toList = before ++ ('"' :: text.toList ++ '"' :: after)) := by
  have hiff : run source = .ok (.string text) ↔
      ∃ ts k, Token.scan source = .ok ts ∧ k ≤ 256 ∧
        IsSentence (.nest (.literal (.string text)) k) ts := by
    rw [run_eq_ok_iff]
    constructor
    · rintro ⟨ts, tree, hscan, hparse, heval⟩
      obtain ⟨k, rfl⟩ := Expr.eval_eq_string_iff.mp heval
      obtain ⟨-, hheight, hsentence⟩ := (parse_eq_ok_iff_of_scan hscan).mp hparse
      rw [Expr.height_nest] at hheight
      exact ⟨ts, k, hscan, Nat.le_trans (Nat.le_add_left _ _) hheight, hsentence⟩
    · rintro ⟨ts, k, hscan, hk, hsentence⟩
      refine ⟨ts, _, hscan, (parse_eq_ok_iff_of_scan hscan).mpr ⟨?_, ?_, hsentence⟩,
        Expr.eval_nest_string text k⟩
      · exact Expr.conformant_nest (e := .literal (.string text)) trivial k
      · rw [Expr.height_nest]
        exact Nat.le_trans (Nat.le_of_eq (Nat.zero_add k)) hk
  constructor
  · rw [hiff]
    refine exists_congr fun ts => exists_congr fun k => ?_
    rw [isSentence_iff_terminals, Expr.yield_nest]
    constructor
    · rintro ⟨hscan, hk, mark, hmark, hts⟩
      exact ⟨mark, hscan, hk, hmark, hts⟩
    · rintro ⟨mark, hscan, hk, hmark, hts⟩
      exact ⟨hscan, hk, mark, hmark, hts⟩
  · intro hrun
    obtain ⟨ts, k, hscan, -, hsentence⟩ := hiff.mp hrun
    obtain ⟨mark, -, hts⟩ := isSentence_iff_terminals.mp hsentence
    have hmem : (⟨.string, some text⟩ : Terminal) ∈ ts.map Token.terminal := by
      rw [hts, Expr.yield_nest]
      simp [Expr.yield, Literal.terminal]
    obtain ⟨t, ht, hterminal⟩ := List.mem_map.mp hmem
    obtain ⟨hkind, rfl⟩ := Token.of_terminal_eq hterminal
    obtain ⟨body, place, rfl, hlayout⟩ := Token.layout_of_scan hscan
    rcases List.mem_append.mp ht with ht | ht
    · exact hlayout.quoted_of_mem ht hkind
    · rw [List.mem_singleton.mp ht] at hkind
      cases hkind

/-- A string that holds a bracket, in two groupings and before a statement mark. -/
theorem run_eq_string_of_groupings :
    let source := "((\"é)\") );"
    run source = .ok (.string "é)") ∧ '"' ∉ "é)".toList ∧
      ∃ before after, source.toList = before ++ ('"' :: "é)".toList ++ '"' :: after) := by
  intro source
  obtain ⟨hiff, hstands⟩ := run_eq_string_iff source "é)"
  have hscan : Token.scan source = .ok
      [⟨.leftParen, "(", .start⟩, ⟨.leftParen, "(", ⟨1, 2⟩⟩, ⟨.string, "é)", ⟨1, 3⟩⟩,
        ⟨.rightParen, ")", ⟨1, 7⟩⟩, ⟨.rightParen, ")", ⟨1, 9⟩⟩, ⟨.endOfStatement, ";", ⟨1, 10⟩⟩,
        .endAt ⟨1, 11⟩] := by decide +kernel
  have hrun : run source = .ok (.string "é)") :=
    hiff.mpr ⟨_, 2, _, hscan, by decide, Or.inr rfl, rfl⟩
  exact ⟨hrun, hstands hrun⟩

end LineCalc
