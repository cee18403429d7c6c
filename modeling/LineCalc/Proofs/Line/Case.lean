/-
# `LineCalc.Proofs.Line.Case` — the case of letters outside of strings, for whole lines

Two texts that differ in the case of letters outside of strings scan alike
(`scan_recased`), and what still differs in their tokens is nothing the later stages look
at.  So the two lines have the same value, or they fail for the same reason at tokens that
correspond to each other (`run_recased`).
-/
import LineCalc.Proofs.Token.Case
import LineCalc.Proofs.Line.Stages

namespace LineCalc

open Token

/-- Texts that differ in the case of letters outside of strings scan to the same tokens, up to the
case of words of truth, or to the same error, up to the case of an unknown word. -/
theorem scan_recased {s s' : String} (h : SameUpToCase s.toList s'.toList) :
    SideBySide ScanError.Recased (List.Forall₂ Token.Recased) (scan s) (scan s') := by
  cases hscan : scan s with
  | ok ts =>
      obtain ⟨pieces, hcuts, rfl⟩ := scan_eq_ok_iff.mp hscan
      obtain ⟨pieces', rest', hcuts', hpieces, hrest⟩ := hcuts.recased h.recasedFrom
      cases hrest
      rw [scan_eq_ok_iff.mpr ⟨pieces', hcuts', rfl⟩]
      exact .ok (tokensFrom_recased hpieces .start)
  | error e =>
      obtain ⟨pieces, rest, fault, hcuts, hblames, rfl⟩ := scan_eq_error_iff.mp hscan
      obtain ⟨pieces', rest', hcuts', hpieces, hrest⟩ := hcuts.recased h.recasedFrom
      obtain ⟨fault', hblames', hfault⟩ := hblames.recased hrest
      rw [scan_eq_error_iff.mpr ⟨pieces', rest', fault', hcuts', hblames', rfl⟩,
        placeAfter_recased hpieces]
      exact .error (hfault.locate _)

theorem Token.Recased.terminal_eq {t u : Token} (h : t.Recased u) : t.terminal = u.terminal := by
  obtain ⟨kind, lexeme, place⟩ := t
  obtain ⟨kind', lexeme', place'⟩ := u
  obtain ⟨rfl, -, hlexeme⟩ := h
  cases kind with
  | bool b => rfl
  | _ => exact congrArg (fun l => Token.terminal ⟨_, l, place⟩) hlexeme

theorem map_terminal_of_recased {ts us : List Token} (h : List.Forall₂ Token.Recased ts us) :
    ts.map Token.terminal = us.map Token.terminal := by
  induction h with
  | nil => rfl
  | cons htu _ ih => rw [List.map_cons, List.map_cons, htu.terminal_eq, ih]

/-- `Corresponding s s' t u`: `t` and `u` have the same index among the tokens of two texts, and are
the same up to the case of a word of truth. -/
def Corresponding (s s' : String) (t u : Token) : Prop :=
  t.Recased u ∧ ∃ ts us, scan s = .ok ts ∧ scan s' = .ok us ∧ Parser.AtSameIndex ts us t u

/-- The case of letters outside of strings makes no difference to tokens, values and errors: only the
words of truth among the tokens and the unknown word of an error keep their letters. -/
theorem run_recased (s s' : String) (h : SameUpToCase s.toList s'.toList) :
    SideBySide ScanError.Recased (List.Forall₂ Token.Recased) (scan s) (scan s') ∧
      SideBySide (LineError.Parallel ScanError.Recased (Corresponding s s')) Eq
        (run s) (run s') := by
  have hscan := scan_recased h
  refine ⟨hscan, ?_⟩
  generalize hts : scan s = x at hscan
  generalize hus : scan s' = y at hscan
  cases hscan with
  | error he =>
      rw [run_eq, run_eq, hts, hus]
      exact .error (.scan he)
  | @ok ts us htokens =>
      refine (run_parallel _ hts hus (map_terminal_of_recased htokens)).mono fun he =>
        he.mono fun htu => ?_
      exact ⟨Parser.rel_of_atSameIndex htokens htu, ts, us, hts, hus, htu⟩

/-- The word of truth behind a string is blamed for the open bracket in whatever case it is
written. -/
theorem run_recased_of_word_of_truth :
    let s := "(\"aB\" TRUE"
    let s' := "(\"aB\" tRUe"
    let t : Token := ⟨.bool true, "TRUE", ⟨1, 7⟩⟩
    SameUpToCase s.toList s'.toList ∧ run s = .error (.parse (.mismatchedBracket t)) ∧
      ∃ u, run s' = .error (.parse (.mismatchedBracket u)) ∧ Corresponding s s' t u := by
  intro s s' t
  have hcase : SameUpToCase s.toList s'.toList := ⟨by decide, by decide +kernel⟩
  have hrun : run s = .error (.parse (.mismatchedBracket t)) := by cbv
  obtain ⟨-, hresult⟩ := run_recased s s' hcase
  rw [hrun] at hresult
  generalize run s' = y at hresult ⊢
  cases hresult with
  | error he =>
      cases he with
      | parse he =>
          cases he with
          | @mismatchedBracket _ u hu => exact ⟨hcase, hrun, u, rfl, hu⟩

end LineCalc
