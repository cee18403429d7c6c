/-
# `LineCalc.Proofs.Line.Blanks` — blanks between tokens change nothing

Blanks can be put into a text wherever no token is torn apart, between tokens that touch
and next to stray characters as well.  There the text comes apart at a seam: what is on the
left is cut as before, then come the blanks, and what is on the right is cut as before.  So
the tokens are the same, up to their places, and places make no difference to any stage
after the scan: the line has the same value or the same error, and a parse error blames the
token at the same index (`run_insert_space`).
-/
import LineCalc.Proofs.Token.Seam
import LineCalc.Proofs.Line.Stages

namespace LineCalc

namespace Token

/-! ## Where blanks may go -/

/-- The stretches that the tokens among some pieces take up, where the pieces begin at the offset
`n`: the offset at which each token begins and the one at which it ends. -/
def spans (n : Nat) : List Piece → List (Nat × Nat)
  | [] => []
  | ⟨text, .token _ _⟩ :: rest => (n, n + text.length) :: spans (n + text.length) rest
  | ⟨text, _⟩ :: rest => spans (n + text.length) rest

/-- The offset `p` of a text lies inside one of its tokens, and at neither end of it. -/
def InsideToken (cs : List Char) (p : Nat) : Prop :=
  ∃ x ∈ spans 0 (cut cs).pieces, x.1 < p ∧ p < x.2

instance (cs : List Char) (p : Nat) : Decidable (InsideToken cs p) :=
  inferInstanceAs (Decidable (∃ x ∈ spans 0 (cut cs).pieces, x.1 < p ∧ p < x.2))

section
variable {n p : Nat} {cs rest : List Char} {piece : Piece} {pieces : List Piece}

theorem mem_spans_cons {x : Nat × Nat} (h : x ∈ spans (n + piece.text.length) pieces) :
    x ∈ spans n (piece :: pieces) := by
  obtain ⟨text, item⟩ := piece
  cases item with
  | token kind lexeme => exact List.mem_cons_of_mem _ h
  | stray c => exact h
  | blank => exact h

theorem Item.Fits.length_le {item : Item} {text : List Char} (h : item.Fits text rest)
    (hp : ∀ x ∈ spans n (⟨text, item⟩ :: pieces), ¬ (x.1 < n + p ∧ n + p < x.2)) (hpos : 0 < p) :
    text.length ≤ p := by
  cases h with
  | blank _ => exact hpos
  | stray _ _ => exact hpos
  | token _ _ _ =>
      have hspan := hp (n, n + text.length) List.mem_cons_self
      dsimp only at hspan
      omega

/-- Outside of tokens a cut comes apart. -/
theorem Cuts.split (h : Cuts cs pieces rest) (hrest : rest = [])
    (hp : ∀ x ∈ spans n pieces, ¬ (x.1 < n + p ∧ n + p < x.2)) :
    ∃ left right, pieces = left ++ right ∧ Cuts cs left (cs.drop p) ∧
      Cuts (cs.drop p) right [] := by
  induction h generalizing n p with
  | stop rest =>
      subst hrest
      rw [List.drop_nil]
      exact ⟨[], [], rfl, .stop [], .stop []⟩
  | @piece item text cs pieces rest hfits hcuts ih =>
      rcases Nat.eq_zero_or_pos p with rfl | hpos
      · subst hrest
        exact ⟨[], _, rfl, .stop _, .piece hfits hcuts⟩
      · have hlength := hfits.length_le hp hpos
        have hdrop : (text ++ cs).drop p = cs.drop (p - text.length) := by
          rw [List.drop_append, List.drop_of_length_le hlength, List.nil_append]
        have hn : n + text.length + (p - text.length) = n + p := by omega
        obtain ⟨left, right, rfl, hleft, hright⟩ := ih (n := n + text.length)
          (p := p - text.length) hrest fun x hx => hn ▸ hp x (mem_spans_cons hx)
        rw [hdrop]
        exact ⟨⟨text, item⟩ :: left, right, rfl, .piece hfits hleft, hright⟩

/-! ## The tokens -/

def Space.blanks (gap : Space) : List Piece := gap.text.map fun c => ⟨[c], .blank⟩

theorem Seam.space (gap : Space) (cs : List Char) : Seam cs (gap.text ++ cs) := by
  obtain ⟨text, hblank⟩ := gap
  cases text with
  | nil => exact fun d hd => Or.inl hd
  | cons c text => exact .blank (hblank c List.mem_cons_self) _ _

theorem cuts_space (gap : Space) (cs : List Char) : Cuts (gap.text ++ cs) gap.blanks cs := by
  obtain ⟨text, hblank⟩ := gap
  induction text with
  | nil => exact .stop cs
  | cons c text ih =>
      have hrest := ih fun d hd => hblank d (List.mem_cons_of_mem c hd)
      exact .piece (.blank (hblank c List.mem_cons_self)) hrest

def Item.token? : Item → Option (Kind × String)
  | token kind lexeme => some (kind, lexeme)
  | stray _ | blank => none

theorem map_unplaced_tokensFrom (p : Position) (pieces : List Piece) :
    (tokensFrom p pieces).map unplaced =
      pieces.filterMap (fun piece => piece.item.token?) ++ [(.endOfInput, "")] := by
  induction pieces generalizing p with
  | nil => rfl
  | cons piece pieces ih =>
      obtain ⟨text, item⟩ := piece
      cases item with
      | token kind lexeme => exact congrArg (List.cons _) (ih _)
      | stray c => exact ih _
      | blank => exact ih _

theorem filterMap_space (gap : Space) :
    gap.blanks.filterMap (fun piece => piece.item.token?) = [] := by
  simp [Space.blanks, Item.token?]

theorem map_terminal_of_unplaced {ts us : List Token} (h : ts.map unplaced = us.map unplaced) :
    ts.map terminal = us.map terminal := by
  have hterminal : terminal =
      (fun x : Kind × String => ⟨x.1, if x.1.keepsLexeme then some x.2 else none⟩) ∘ unplaced := rfl
  rw [hterminal, ← List.map_map, h, List.map_map]

end

end Token

/-! ## The line -/

open Token

/-- Blanks that are put where no token is torn apart change no token, up to its place, and no
result, up to the place of the token that a parse error blames. -/
theorem run_insert_space (s : String) (ts : List Token) (p : Nat) (gap : Space)
    (hscan : scan s = .ok ts) (hp : ¬ InsideToken s.toList p) :
    let s' := String.ofList (s.toList.take p ++ gap.text ++ s.toList.drop p)
    ∃ us, scan s' = .ok us ∧ us.map unplaced = ts.map unplaced ∧
      match run s with
      | .error (.parse e) => ∃ e', run s' = .error (.parse e') ∧
          e.Parallel (Parser.AtSameIndex ts us) e'
      | r => run s' = r := by
  intro s'
  obtain ⟨pieces, hcuts, rfl⟩ := scan_eq_ok_iff.mp hscan
  have hpieces : (cut s.toList).pieces = pieces := by rw [cut_of_cuts hcuts .nothing]
  obtain ⟨left, right, rfl, hleft, hright⟩ := hcuts.split (n := 0) (p := p) rfl fun x hx hlt =>
    hp ⟨x, hpieces.symm ▸ hx, by omega⟩
  have hfront : s.toList.take p = left.flatMap Piece.text := by
    have hwhole : s.toList.take p ++ s.toList.drop p = _ :=
      (List.take_append_drop p s.toList).trans hleft.eq_append
    exact List.append_cancel_right hwhole
  -- the blanks are cut off at the seam, one by one
  have hcuts' : Cuts s'.toList (left ++ (gap.blanks ++ right)) [] := by
    have hsewn := hleft.seam (.space gap (s.toList.drop p))
    rw [String.toList_ofList, hfront, List.append_assoc]
    exact hsewn.append ((cuts_space gap _).append hright)
  have hunplaced : (tokensFrom .start (left ++ (gap.blanks ++ right))).map unplaced =
      (tokensFrom .start (left ++ right)).map unplaced := by
    simp only [map_unplaced_tokensFrom, List.filterMap_append, filterMap_space, List.nil_append]
  have hscan' := scan_eq_ok_iff.mpr ⟨_, hcuts', rfl⟩
  refine ⟨_, hscan', hunplaced, ?_⟩
  have hresult := run_parallel (fun _ _ => False) hscan hscan'
    (map_terminal_of_unplaced hunplaced.symm)
  generalize run s = x at hresult ⊢
  generalize run s' = y at hresult ⊢
  cases hresult with
  | ok hv => exact congrArg Except.ok hv.symm
  | error he =>
      cases he with
      | scan hfalse => exact hfalse.elim
      | parse he => exact ⟨_, rfl, he⟩
      | eval => rfl

/-- A line feed and a space go between the two stray characters of `(1 &|2`, and the `2` is still
blamed for the open bracket, in the next line. -/
theorem run_insert_space_of_strays :
    let s := "(1 &|2"
    let two : Token := ⟨.integer, "2", ⟨1, 6⟩⟩
    let ts : List Token := [⟨.leftParen, "(", ⟨1, 1⟩⟩, ⟨.integer, "1", ⟨1, 2⟩⟩, two, endAt ⟨1, 7⟩]
    scan s = .ok ts ∧ ¬ InsideToken s.toList 4 ∧
      run s = .error (.parse (.mismatchedBracket two)) ∧
      ∃ us u, scan "(1 &\n |2" = .ok us ∧ us.map unplaced = ts.map unplaced ∧
        Parser.AtSameIndex ts us two u ∧
        run "(1 &\n |2" = .error (.parse (.mismatchedBracket u)) := by
  intro s two ts
  have hscan : scan s = .ok ts := by decide +kernel
  have hoffset : ¬ InsideToken s.toList 4 := by decide +kernel
  have hrun : run s = .error (.parse (.mismatchedBracket two)) := by cbv
  have hblank : ∀ c ∈ ['\n', ' '], isBlank c = true := by simp [isBlank]
  have hinsert : String.ofList (s.toList.take 4 ++ ['\n', ' '] ++ s.toList.drop 4) = "(1 &\n |2" := by
    decide +kernel
  obtain ⟨us, hscan', hunplaced, hresult⟩ := run_insert_space s ts 4 ⟨_, hblank⟩ hscan hoffset
  rw [hrun] at hresult
  obtain ⟨e, hrun', he⟩ := hresult
  rw [hinsert] at hscan' hrun'
  cases he with
  | @mismatchedBracket _ u hu => exact ⟨hscan, hoffset, hrun, us, u, hscan', hunplaced, hu, hrun'⟩

end LineCalc
