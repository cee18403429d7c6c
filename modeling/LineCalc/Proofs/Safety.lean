/-
# `LineCalc.Proofs.Safety` — no step is impossible

The scanner, the parser and the evaluator each rely on something that another place takes care
of: on offsets that stand between characters, on tokens that were looked at before they are
taken for operators, on a depth that was raised before it is lowered.  Told with their
partial steps, they never come to one of these that cannot be taken, and they do what they do
where no step is partial.
-/
import LineCalc.Proofs.Parser.Calls
import LineCalc.Proofs.Expr.Dispatch
import LineCalc.Proofs.Token.Reader

namespace LineCalc

/-- A walk over tokens ends in no breach, and no cursor that it passes has a depth or a height
above the limit. -/
def Parser.Safe {α : Type} (w : Parser.Step α) : Prop :=
  (∀ b, w.result ≠ .error (.breach b)) ∧ ∀ c ∈ w.notes, c.depth ≤ 256 ∧ c.height ≤ 256

theorem Parser.safe_of_keeps {α : Type} {w : Parser.Step α} {x : Except ParseError α}
    (hresult : w.result = unbroken Breach x) {E : Stop ParseError Breach → Prop} {Q : α → Prop}
    (h : w.Keeps (Cursor.Within maxDepth) E Q) : Safe w := by
  refine ⟨fun b => ?_, fun c hc => ⟨(h.notes c hc).depth_le, (h.notes c hc).height_le⟩⟩
  rw [hresult]
  exact unbroken_ne_breach x b

/-- No text, token list or tree leads to a breach, as long as its lines can be counted.

Whatever the tokens, calls of the grammar one after another are safe, and so is reading the rest
up to the end marker after any of them; they come to what the parser reads, and no rule leaves
a height above the limit.  Evaluation and scanning come to what they come to where no step is
partial. -/
theorem no_breach :
    (∀ ts n, let calls := (Parser.Cursor.ofTokens ts).expressions n
      calls.result = unbroken Parser.Breach ((Parser.Cursor.ofTokens ts).readings n) ∧
      Parser.Safe calls ∧
      ∀ es c, calls.result = .ok (es, c) →
        c.parse.result = unbroken Parser.Breach c.parser.parse ∧ Parser.Safe c.parse) ∧
    (∀ (r : Parser.Rule) c e d, (r.parse c).result = .ok (e, d) → d.height ≤ 256) ∧
    (∀ e, Dispatch.evaluate e = unbroken Dispatch.Breach e.eval ∧
      ∀ b, Dispatch.evaluate e ≠ .error (.breach b)) ∧
    ∀ s : String, s.toList.count '\n' < 2 ^ 32 - 1 →
      Token.Reader.scan s (.ofSource s) = ⟨(Token.Trace.ofSource s).events,
        unbroken Token.Breach (Token.Trace.ofSource s).outcome⟩ ∧
      ∀ b, (Token.Reader.scan s (.ofSource s)).result ≠ .error (.breach b) := by
  refine ⟨fun ts n => ?_, fun r c e d h => (Parser.Rule.parse_ok h).2, fun e => ?_, fun s h => ?_⟩
  · have hstart : (Parser.Cursor.ofTokens ts).Within Parser.maxDepth :=
      ⟨Nat.zero_le _, Nat.zero_le _⟩
    have hcalls := Parser.Cursor.expressions_keeps (Nat.le_refl _) hstart rfl n
    have hresult := Parser.Cursor.expressions_result (c := .ofTokens ts) rfl n
    refine ⟨hresult, Parser.safe_of_keeps hresult hcalls, fun es c hes => ?_⟩
    obtain ⟨-, -, hall⟩ := hcalls.value (es, c) hes
    have hdepth : c.depth = 0 := hall.depth_eq rfl
    have hparse := Parser.Cursor.parse_result hdepth
    exact ⟨hparse, Parser.safe_of_keeps hparse
      (Parser.Cursor.parse_keeps (Nat.le_refl _) (hall.within (Nat.le_refl _) hstart) hdepth)⟩
  · have heval := Dispatch.evaluate_eq e
    refine ⟨heval, fun b => ?_⟩
    rw [heval]
    exact unbroken_ne_breach _ b
  · have hscan := Token.Reader.scan_eq s h
    refine ⟨hscan, fun b => ?_⟩
    rw [hscan]
    exact unbroken_ne_breach _ b

/-- Reading on after `1` before an open bracket is safe, and so is scanning a string over two lines
with a character of two bytes in it. -/
theorem no_breach_of_string_and_bracket :
    let ts : List Token :=
      [⟨.integer, "1", .start⟩, ⟨.leftParen, "(", .start⟩, Token.endAt .start]
    let c : Parser.Cursor := ⟨ts.drop 1, Token.endAt .start, 0, 0⟩
    let s := "\"é\n\" 1"
    (((Parser.Cursor.ofTokens ts).expressions 1).result = .ok ([.literal (.integer "1")], c) ∧
      Parser.Safe c.parse) ∧
    (((Parser.Rule.chain .equality).parse (.ofTokens ts)).result
        = .ok (.literal (.integer "1"), c) ∧ c.height ≤ 256) ∧
    s.toList.count '\n' < 2 ^ 32 - 1 ∧
      ∀ b, (Token.Reader.scan s (.ofSource s)).result ≠ .error (.breach b) := by
  intro ts c s
  obtain ⟨hparser, hheight, -, hscan⟩ := no_breach
  have hcall : ((Parser.Cursor.ofTokens ts).expressions 1).result
      = .ok ([.literal (.integer "1")], c) := (Parser.Cursor.expressions_result rfl 1).trans rfl
  have hrule : ((Parser.Rule.chain .equality).parse (.ofTokens ts)).result
      = .ok (.literal (.integer "1"), c) := (Parser.Cursor.expression_result rfl).trans rfl
  have hfeeds : s.toList.count '\n' < 2 ^ 32 - 1 := by decide
  obtain ⟨-, -, hparse⟩ := hparser ts 1
  exact ⟨⟨hcall, (hparse _ c hcall).2⟩, ⟨hrule, hheight _ _ _ c hrule⟩, hfeeds,
    (hscan s hfeeds).2⟩

end LineCalc
