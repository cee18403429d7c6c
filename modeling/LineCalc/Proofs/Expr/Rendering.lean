/-
# `LineCalc.Proofs.Expr.Rendering` — a rendering is read in one way

The written form of a tree escapes nothing, writes both sorts of numbers alike and uses one
sign for a negation and a subtraction.  It can be read back all the same if the literals
are such as tokens have (`Expr.Spelled`), and then in one way only.

Read from the left, a literal is what the scanner would take: its text is that of a token,
and a blank or a bracket ends it (`Literal.fits`).  A node is its first word up to the blank,
and then its operands, which are told apart by induction (`Expr.render_append_inj`); how many
there are is seen from what follows the first one.
-/
import LineCalc.Proofs.Provenance

namespace LineCalc

/-! ## Literals -/

namespace Token

theorem Layout.admits {cs : List Char} {ts : List Token} (h : Layout cs ts) :
    ∀ t ∈ ts, t.kind.Admits t.lexeme := by
  induction h with
  | nil => exact fun _ ht => nomatch ht
  | gap _ _ ih => exact ih
  | token hadmits _ _ _ ih => exact List.forall_mem_cons.mpr ⟨hadmits, ih⟩

/-- A text begins with one piece at most, and that ends in one place. -/
theorem Item.Fits.unique {item item' : Item} {text text' rest rest' : List Char}
    (h : item.Fits text rest) (h' : item'.Fits text' rest')
    (htext : text ++ rest = text' ++ rest') : item = item' ∧ text = text' ∧ rest = rest' := by
  obtain ⟨c, cs, rfl, hfirst⟩ := first_of_fits h
  obtain ⟨c', cs', rfl, hfirst'⟩ := first_of_fits h'
  obtain ⟨rfl, hcs⟩ := List.cons.inj htext
  have hcs : cs ++ rest = cs' ++ rest' := hcs
  rw [hcs, hfirst'] at hfirst
  obtain ⟨rfl, hlength⟩ := Prod.mk.inj (Except.ok.inj hfirst)
  obtain ⟨rfl, rfl⟩ := List.append_inj hcs hlength.symm
  exact ⟨rfl, rfl, rfl⟩

end Token

/-- What may follow an operand in a rendering: nothing, a blank or a bracket. -/
def EndsOperand (rest : List Char) : Prop := ∀ c ∈ rest.head?, c = ' ' ∨ c = ')'

theorem endsOperand_blank (rest : List Char) : EndsOperand (' ' :: rest) := by
  intro c hc
  cases hc
  exact Or.inl rfl

theorem endsOperand_bracket (rest : List Char) : EndsOperand (')' :: rest) := by
  intro c hc
  cases hc
  exact Or.inr rfl

namespace Literal

/-- The token that a literal is rendered as, without its place. -/
def item : Literal → Token.Item
  | integer lexeme => .token .integer lexeme
  | float lexeme => .token .float lexeme
  | string text => .token .string text
  | bool b => .token (.bool b) (truthWord b)

/-- The text of the literal is one that a token can have. -/
def Spelled : Literal → Prop
  | integer lexeme => Token.Kind.integer.Admits lexeme
  | float lexeme => Token.Kind.float.Admits lexeme
  | string text => Token.Kind.string.Admits text
  | bool _ => True

theorem item_inj {l l' : Literal} (h : l.item = l'.item) : l = l' := by
  cases l <;> cases l' <;> simp_all [item]

theorem fits {l : Literal} {rest : List Char} (hl : l.Spelled) (hrest : EndsOperand rest) :
    l.item.Fits l.render.toList rest := by
  have hends : ∀ {p : Char → Bool}, p ' ' = false → p ')' = false →
      ∀ c ∈ rest.head?, p c = false := by
    intro p hblank hbracket c hc
    rcases hrest c hc with rfl | rfl
    · exact hblank
    · exact hbracket
  cases l with
  | integer lexeme => exact .token hl rfl (hends rfl rfl)
  | float lexeme => exact .token hl rfl (hends rfl rfl)
  | string text =>
      refine .token hl ?_ (fun _ _ => rfl)
      show (quoted text).toList = '"' :: (text.toList ++ ['"'])
      simp [quoted]
  | bool b =>
      refine .token ?_ rfl (hends rfl rfl)
      show Token.Reserved.lower (truthWord b).toList = (toString b).toList
      cases b <;> rfl

theorem render_append_ne_bracket {l : Literal} {rest more : List Char} (hl : l.Spelled)
    (hrest : EndsOperand rest) : l.render.toList ++ rest ≠ '(' :: more := by
  intro h
  have hbracket : (Token.Item.token .leftParen "(").Fits ['('] more :=
    .token rfl rfl (fun _ _ => rfl)
  obtain ⟨hitem, -⟩ := (fits hl hrest).unique hbracket h
  cases l <;> exact nomatch hitem

theorem render_append_inj {l l' : Literal} {rest rest' : List Char} (hl : l.Spelled)
    (hl' : l'.Spelled) (hrest : EndsOperand rest) (hrest' : EndsOperand rest')
    (h : l.render.toList ++ rest = l'.render.toList ++ rest') : l = l' ∧ rest = rest' := by
  obtain ⟨hitem, -, heq⟩ := (fits hl hrest).unique (fits hl' hrest') h
  exact ⟨item_inj hitem, heq⟩

end Literal

/-! ## Nodes -/

/-- The first word of a node and what follows it are told apart by the first blank. -/
theorem node_text_inj {word word' more more' : List Char} (hword : ' ' ∉ word)
    (hword' : ' ' ∉ word') (h : '(' :: (word ++ ' ' :: more) = '(' :: (word' ++ ' ' :: more')) :
    word = word' ∧ more = more' := by
  have hcut : ∀ {w more : List Char}, ' ' ∉ w → (w ++ ' ' :: more).takeWhile (· != ' ') = w := by
    intro w more hw
    refine Token.takeWhile_append_of_stop (fun c hc => ?_) (fun c hc => ?_)
    · simp only [bne_iff_ne]
      rintro rfl
      exact hw hc
    · cases hc
      rfl
  have h := (List.cons.inj h).2
  have hsame := congrArg (List.takeWhile (· != ' ')) h
  rw [hcut hword, hcut hword'] at hsame
  subst hsame
  exact ⟨rfl, (List.cons.inj (List.append_cancel_left h)).2⟩

def groupWord : String := "group"

theorem UnaryOp.blank_not_mem_symbol (op : UnaryOp) : ' ' ∉ op.symbol.toList := by
  cases op <;> decide

theorem BinaryOp.blank_not_mem_symbol (op : BinaryOp) : ' ' ∉ op.symbol.toList := by
  cases op with
  | relate r => cases r <;> decide
  | compute a => cases a <;> decide
  | rem => decide

theorem UnaryOp.symbol_ne_groupWord (op : UnaryOp) : op.symbol ≠ groupWord := by
  cases op <;> decide

theorem BinaryOp.symbol_ne_groupWord (op : BinaryOp) : op.symbol ≠ groupWord := by
  cases op with
  | relate r => cases r <;> decide
  | compute a => cases a <;> decide
  | rem => decide

theorem UnaryOp.symbol_inj {op op' : UnaryOp} (h : op.symbol = op'.symbol) : op = op' := by
  cases op <;> cases op' <;> first | rfl | exact absurd h (by decide)

theorem BinaryOp.symbol_inj {op op' : BinaryOp} (h : op.symbol = op'.symbol) : op = op' := by
  rcases op with r | a | _ <;> rcases op' with r' | a' | _ <;> try cases r
  all_goals try cases a
  all_goals try cases r'
  all_goals try cases a'
  all_goals first | rfl | exact absurd h (by decide)

namespace Expr

theorem render_group_append (e : Expr) (rest : List Char) : (group e).render.toList ++ rest
    = '(' :: (groupWord.toList ++ ' ' :: (e.render.toList ++ ')' :: rest)) := by
  simp [render, groupWord]

theorem render_unary_append (op : UnaryOp) (e : Expr) (rest : List Char) :
    (unary op e).render.toList ++ rest
      = '(' :: (op.symbol.toList ++ ' ' :: (e.render.toList ++ ')' :: rest)) := by
  simp [render]

theorem render_binary_append (left : Expr) (op : BinaryOp) (right : Expr) (rest : List Char) :
    (binary left op right).render.toList ++ rest
      = '(' :: (op.symbol.toList
          ++ ' ' :: (left.render.toList ++ ' ' :: (right.render.toList ++ ')' :: rest))) := by
  simp [render]

/-- Every literal of the tree is one that a token can have. -/
def Spelled (e : Expr) : Prop := ∀ l ∈ e.literals, l.Spelled

section
variable {e e' : Expr} {rest rest' : List Char}

theorem eq_literal_of_render_append {l : Literal} (hl : l.Spelled) (hrest : EndsOperand rest)
    (h : (literal l).render.toList ++ rest = e'.render.toList ++ rest') :
    ∃ l', e' = literal l' := by
  cases e' with
  | literal l' => exact ⟨l', rfl⟩
  | group e' =>
      rw [render_group_append] at h
      exact absurd h (Literal.render_append_ne_bracket hl hrest)
  | unary op' e' =>
      rw [render_unary_append] at h
      exact absurd h (Literal.render_append_ne_bracket hl hrest)
  | binary left' op' right' =>
      rw [render_binary_append] at h
      exact absurd h (Literal.render_append_ne_bracket hl hrest)

theorem eq_group_of_render_append (he' : e'.Spelled) (hrest' : EndsOperand rest')
    (h : (group e).render.toList ++ rest = e'.render.toList ++ rest') :
    ∃ e'', e' = group e'' := by
  cases e' with
  | literal l' =>
      obtain ⟨_, hgroup⟩ := eq_literal_of_render_append (he' l' List.mem_cons_self) hrest' h.symm
      cases hgroup
  | group e' => exact ⟨e', rfl⟩
  | unary op' e' =>
      rw [render_group_append, render_unary_append] at h
      obtain ⟨hword, -⟩ := node_text_inj (by decide) op'.blank_not_mem_symbol h
      exact absurd (String.toList_inj.mp hword).symm op'.symbol_ne_groupWord
  | binary left' op' right' =>
      rw [render_group_append, render_binary_append] at h
      obtain ⟨hword, -⟩ := node_text_inj (by decide) op'.blank_not_mem_symbol h
      exact absurd (String.toList_inj.mp hword).symm op'.symbol_ne_groupWord

/-- What begins with a rendering of such a tree is read in one way. -/
theorem render_append_inj (he : e.Spelled) (he' : e'.Spelled) (hrest : EndsOperand rest)
    (hrest' : EndsOperand rest') (h : e.render.toList ++ rest = e'.render.toList ++ rest') :
    e = e' ∧ rest = rest' := by
  induction e generalizing e' rest rest' with
  | literal l =>
      have hl : l.Spelled := he l List.mem_cons_self
      obtain ⟨l', rfl⟩ := eq_literal_of_render_append hl hrest h
      obtain ⟨rfl, heq⟩ := Literal.render_append_inj hl (he' l' List.mem_cons_self) hrest hrest' h
      exact ⟨rfl, heq⟩
  | group e ih =>
      obtain ⟨e', rfl⟩ := eq_group_of_render_append he' hrest' h
      have he' : e'.Spelled := he'
      rw [render_group_append, render_group_append] at h
      obtain ⟨-, hbody⟩ := node_text_inj (by decide) (by decide) h
      obtain ⟨rfl, heq⟩ := ih he he' (endsOperand_bracket _) (endsOperand_bracket _) hbody
      exact ⟨rfl, (List.cons.inj heq).2⟩
  | unary op e ih =>
      cases e' with
      | literal l' =>
          obtain ⟨_, hunary⟩ :=
            eq_literal_of_render_append (he' l' List.mem_cons_self) hrest' h.symm
          cases hunary
      | group e' =>
          obtain ⟨_, hunary⟩ := eq_group_of_render_append he hrest h.symm
          cases hunary
      | unary op' e' =>
          rw [render_unary_append, render_unary_append] at h
          obtain ⟨hword, hbody⟩ :=
            node_text_inj op.blank_not_mem_symbol op'.blank_not_mem_symbol h
          obtain rfl := UnaryOp.symbol_inj (String.toList_inj.mp hword)
          have he' : e'.Spelled := he'
          obtain ⟨rfl, heq⟩ := ih he he' (endsOperand_bracket _) (endsOperand_bracket _) hbody
          exact ⟨rfl, (List.cons.inj heq).2⟩
      | binary left' op' right' =>
          -- one minus sign looks like the other, but a second operand follows only here
          rw [render_unary_append, render_binary_append] at h
          obtain ⟨-, hbody⟩ := node_text_inj op.blank_not_mem_symbol op'.blank_not_mem_symbol h
          have hleft' : left'.Spelled := fun l hl => he' l (List.mem_append_left _ hl)
          obtain ⟨-, heq⟩ := ih he hleft' (endsOperand_bracket _) (endsOperand_blank _) hbody
          exact nomatch (List.cons.inj heq).1
  | binary left op right ihl ihr =>
      have hleft : left.Spelled := fun l hl => he l (List.mem_append_left _ hl)
      have hright : right.Spelled := fun l hl => he l (List.mem_append_right _ hl)
      cases e' with
      | literal l' =>
          obtain ⟨_, hbinary⟩ :=
            eq_literal_of_render_append (he' l' List.mem_cons_self) hrest' h.symm
          cases hbinary
      | group e' =>
          obtain ⟨_, hbinary⟩ := eq_group_of_render_append he hrest h.symm
          cases hbinary
      | unary op' e' =>
          rw [render_binary_append, render_unary_append] at h
          have he' : e'.Spelled := he'
          obtain ⟨-, hbody⟩ := node_text_inj op.blank_not_mem_symbol op'.blank_not_mem_symbol h
          obtain ⟨-, heq⟩ := ihl hleft he' (endsOperand_blank _) (endsOperand_bracket _) hbody
          exact nomatch (List.cons.inj heq).1
      | binary left' op' right' =>
          have hleft' : left'.Spelled := fun l hl => he' l (List.mem_append_left _ hl)
          have hright' : right'.Spelled := fun l hl => he' l (List.mem_append_right _ hl)
          rw [render_binary_append, render_binary_append] at h
          obtain ⟨hword, hbody⟩ :=
            node_text_inj op.blank_not_mem_symbol op'.blank_not_mem_symbol h
          obtain rfl := BinaryOp.symbol_inj (String.toList_inj.mp hword)
          obtain ⟨rfl, hsecond⟩ :=
            ihl hleft hleft' (endsOperand_blank _) (endsOperand_blank _) hbody
          have hsecond := (List.cons.inj hsecond).2
          obtain ⟨rfl, heq⟩ :=
            ihr hright hright' (endsOperand_bracket _) (endsOperand_bracket _) hsecond
          exact ⟨rfl, (List.cons.inj heq).2⟩

end

end Expr

/-! ## Trees of texts -/

theorem spelled_of_parse {source : String} {ts : List Token} {e : Expr}
    (hscan : Token.scan source = .ok ts) (hparse : parse ts = .ok e) : e.Spelled := by
  intro l hl
  obtain ⟨t, ht, hterminal⟩ := Parser.mem_literals_of_parse hparse hl
  obtain ⟨body, place, rfl, hlayout⟩ := Token.layout_of_scan hscan
  have hkind : t.kind = l.terminal.kind := congrArg Terminal.kind hterminal
  have hlexeme : (if t.kind.keepsLexeme then some t.lexeme else none) = l.terminal.lexeme :=
    congrArg Terminal.lexeme hterminal
  have hadmits : t.kind.Admits t.lexeme := by
    rcases List.mem_append.mp ht with hbody | hend
    · exact hlayout.admits t hbody
    · rw [List.mem_singleton.mp hend] at hkind
      cases l <;> exact nomatch hkind
  rw [hkind] at hadmits hlexeme
  cases l with
  | integer lexeme | float lexeme | string text =>
      obtain rfl := Option.some.inj hlexeme
      exact hadmits
  | bool b => trivial

/-- Texts whose trees are rendered alike have the same tree. -/
theorem tree_eq_of_render_eq {source source' : String} {ts ts' : List Token} {e e' : Expr}
    (hscan : Token.scan source = .ok ts) (hparse : parse ts = .ok e)
    (hscan' : Token.scan source' = .ok ts') (hparse' : parse ts' = .ok e')
    (hrender : e.render = e'.render) : e = e' := by
  have hnothing : EndsOperand [] := fun c hc => nomatch hc
  have htext : e.render.toList ++ [] = e'.render.toList ++ [] := by rw [hrender]
  exact (Expr.render_append_inj (spelled_of_parse hscan hparse) (spelled_of_parse hscan' hparse')
    hnothing hnothing htext).1

/-- A negation under a subtraction, and a string that holds brackets and blanks; the second text
is spaced otherwise and ends in a statement mark. -/
theorem tree_eq_of_render_eq_of_minus_signs :
    let source := "- 1.5 - (\") (\")"
    let source' := "-1.5-(\") (\");"
    ∃ ts ts' e e', Token.scan source = .ok ts ∧ parse ts = .ok e ∧ Token.scan source' = .ok ts' ∧
      parse ts' = .ok e' ∧ e.render = "(- (- 1.5) (group \") (\"))" ∧ e'.render = e.render ∧
      e = e' := by
  intro source source'
  let ts : List Token :=
    [⟨.minus, "-", ⟨1, 1⟩⟩, ⟨.float, "1.5", ⟨1, 3⟩⟩, ⟨.minus, "-", ⟨1, 7⟩⟩,
      ⟨.leftParen, "(", ⟨1, 9⟩⟩, ⟨.string, ") (", ⟨1, 10⟩⟩, ⟨.rightParen, ")", ⟨1, 15⟩⟩,
      .endAt ⟨1, 16⟩]
  let ts' : List Token :=
    [⟨.minus, "-", ⟨1, 1⟩⟩, ⟨.float, "1.5", ⟨1, 2⟩⟩, ⟨.minus, "-", ⟨1, 5⟩⟩,
      ⟨.leftParen, "(", ⟨1, 6⟩⟩, ⟨.string, ") (", ⟨1, 7⟩⟩, ⟨.rightParen, ")", ⟨1, 12⟩⟩,
      ⟨.endOfStatement, ";", ⟨1, 13⟩⟩, .endAt ⟨1, 14⟩]
  let tree : Expr := .binary (.unary .negate (.literal (.float "1.5"))) (.compute .sub)
    (.group (.literal (.string ") (")))
  have hscan : Token.scan source = .ok ts := by decide +kernel
  have hparse : parse ts = .ok tree := rfl
  have hscan' : Token.scan source' = .ok ts' := by decide +kernel
  have hparse' : parse ts' = .ok tree := rfl
  exact ⟨ts, ts', tree, tree, hscan, hparse, hscan', hparse', by decide +kernel, rfl,
    tree_eq_of_render_eq hscan hparse hscan' hparse' rfl⟩

/-- Two trees that are rendered alike and differ: no token is a float and has the text of this
one. -/
example :
    let e := Expr.literal (.integer "1")
    let e' := Expr.literal (.float "1")
    e.render = e'.render ∧ e ≠ e' := by decide

end LineCalc
