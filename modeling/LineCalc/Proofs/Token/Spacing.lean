/-
# `LineCalc.Proofs.Token.Spacing` — tokens with space between them

Tokens can be written side by side in any way, as long as there is space between two of
them: a blank character ends whatever stands before it, so no token grows into the next.
What is written with any spaces therefore scans to the tokens it was written from
(`scan_spread`).
-/
import LineCalc.Proofs.Token.Scan

namespace LineCalc.Token

/-- A kind and a lexeme of that kind, with a text they may be written as. -/
structure Written where
  kind : Kind
  lexeme : String
  text : List Char
  admits : kind.Admits lexeme
  writes : kind.Writes lexeme text

def Written.token (w : Written) : Token := ⟨w.kind, w.lexeme, .start⟩

structure Space where
  text : List Char
  blank : ∀ c ∈ text, isBlank c = true

/-- Tokens written one after the other, each with the space after it, behind a space in front. -/
def spread (front : Space) : List (Written × Space) → List Char
  | [] => front.text
  | (w, gap) :: rest => front.text ++ (w.text ++ spread gap rest)

theorem Kind.goesOn_of_isBlank {c : Char} (h : isBlank c = true) (kind : Kind) :
    kind.goesOn c = false := by
  simp only [isBlank, Bool.or_eq_true, beq_iff_eq] at h
  rcases h with ((rfl | rfl) | rfl) | rfl <;> cases kind <;> rfl

theorem Layout.space {cs : List Char} {ts : List Token} (h : Layout cs ts) (gap : Space) :
    Layout (gap.text ++ cs) ts := by
  obtain ⟨text, hblank⟩ := gap
  induction text with
  | nil => exact h
  | cons c text ih =>
      have hrest := ih fun d hd => hblank d (List.mem_cons_of_mem c hd)
      exact .gap (Or.inl (hblank c List.mem_cons_self)) hrest

theorem Kind.endsBefore_spread {gap : Space} {rest : List (Written × Space)}
    (h : rest ≠ [] → gap.text ≠ []) (kind : Kind) : kind.EndsBefore (spread gap rest) := by
  intro c hc
  have hmem : c ∈ gap.text := by
    cases rest with
    | nil => exact List.mem_of_mem_head? hc
    | cons x rest =>
        obtain ⟨d, text, htext⟩ := List.exists_cons_of_ne_nil (h (List.cons_ne_nil _ _))
        rw [spread, htext, List.cons_append] at hc
        rw [htext, ← Option.some.inj hc]
        exact List.mem_cons_self
  exact goesOn_of_isBlank (gap.blank c hmem) kind

theorem layout_spread {ws : List (Written × Space)} (h : ∀ x ∈ ws.dropLast, x.2.text ≠ [])
    (front : Space) : Layout (spread front ws) (ws.map fun x => x.1.token) := by
  induction ws generalizing front with
  | nil =>
      have hlayout := Layout.nil.space front
      rwa [List.append_nil] at hlayout
  | cons x ws ih =>
      obtain ⟨w, gap⟩ := x
      -- only the last space may be empty, and the text ends there
      have hgap : ws ≠ [] → gap.text ≠ [] := by
        intro hws
        rw [List.dropLast_cons_of_ne_nil hws] at h
        exact h _ List.mem_cons_self
      have hrest : ∀ x ∈ ws.dropLast, x.2.text ≠ [] := by
        intro x hx
        have hws : ws ≠ [] := by
          rintro rfl
          exact nomatch hx
        rw [List.dropLast_cons_of_ne_nil hws] at h
        exact h x (List.mem_cons_of_mem _ hx)
      have hlayout : Layout (w.text ++ spread gap ws) (w.token :: ws.map fun x => x.1.token) :=
        .token w.admits w.writes (w.kind.endsBefore_spread hgap) (ih hrest gap)
      exact hlayout.space front

/-- Tokens that are written with some space between any two of them scan to themselves. -/
theorem scan_spread (front : Space) (ws : List (Written × Space))
    (h : ∀ x ∈ ws.dropLast, x.2.text ≠ []) :
    ∃ ts place, scan (String.ofList (spread front ws)) = .ok (ts ++ [endAt place]) ∧
      ts.map unplaced = ws.map fun x => (x.1.kind, x.1.lexeme) := by
  have hlayout := layout_spread h front
  rw [← String.toList_ofList (l := spread front ws)] at hlayout
  obtain ⟨ts, place, hscan, hts⟩ := scan_of_layout hlayout
  refine ⟨ts, place, hscan, ?_⟩
  rw [hts, List.map_map]
  rfl

/-- A keyword, a string over two lines and a float, with nothing after the last of them. -/
theorem scan_spread_of_keyword :
    let front : Space := ⟨['\r'], List.all_eq_true.mp rfl⟩
    let keyword : Written :=
      ⟨.identifier, "WHILE", "wHiLe".toList, ⟨"while", by decide, rfl⟩, rfl⟩
    let string : Written := ⟨.string, "é\n", "\"é\n\"".toList,
      (by decide : '"' ∉ "é\n".toList), rfl⟩
    let float : Written := ⟨.float, "1.2.", "1.2.".toList,
      ⟨rfl, List.all_eq_true.mp rfl, (by decide : '.' ∈ "1.2.".toList)⟩, rfl⟩
    let ws : List (Written × Space) := [(keyword, ⟨['\t', '\n'], List.all_eq_true.mp rfl⟩),
      (string, ⟨[' '], List.all_eq_true.mp rfl⟩), (float, ⟨[], List.all_eq_true.mp rfl⟩)]
    (∀ x ∈ ws.dropLast, x.2.text ≠ []) ∧
      String.ofList (spread front ws) = "\rwHiLe\t\n\"é\n\" 1.2." ∧
      ∃ ts place, scan "\rwHiLe\t\n\"é\n\" 1.2." = .ok (ts ++ [endAt place]) ∧
        ts.map unplaced = [(.identifier, "WHILE"), (.string, "é\n"), (.float, "1.2.")] := by
  intro front keyword string float ws
  have hspaces : ∀ x ∈ ws.dropLast, x.2.text ≠ [] := by
    intro x hx
    rcases List.mem_cons.mp hx with rfl | hx
    · exact List.cons_ne_nil _ _
    · obtain rfl := List.mem_singleton.mp hx
      exact List.cons_ne_nil _ _
  have htext : String.ofList (spread front ws) = "\rwHiLe\t\n\"é\n\" 1.2." := by decide
  obtain ⟨ts, place, hscan, hts⟩ := scan_spread front ws hspaces
  rw [htext] at hscan
  exact ⟨hspaces, htext, ts, place, hscan, hts⟩

end LineCalc.Token
