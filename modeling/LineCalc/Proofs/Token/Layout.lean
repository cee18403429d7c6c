/-
# `LineCalc.Proofs.Token.Layout` — what a scanned text is made of

A text that scans is laid out: its tokens stand in it one after the other, and between
them there is nothing but blanks and stray `&` and `|`.  Each token is written as its
kind and lexeme say, and none of them could have been longer.

The languages come first: what the lexemes of a kind are, how a token is written, and
which characters it would go on with.  They speak of texts only.  Then each reader of a
first piece is shown to read what the languages admit and to stop where it has to, and
the layout of a text follows the pieces it is cut into.
-/
import Mathlib
import LineCalc.Token.Trace

namespace LineCalc.Token

/-! ## The languages of tokens -/

namespace Kind

/-- The lexemes of a kind: the one spelling of an operator, a bracket or the statement mark;
digits; digits and points, a digit first; anything without a quote; a word of truth in any
case; a keyword in capitals.  The end marker has none. -/
def Admits (kind : Kind) (lexeme : String) : Prop :=
  match kind with
  | .integer => lexeme.toList ≠ [] ∧ ∀ c ∈ lexeme.toList, c.isDigit
  | .float => lexeme.toList.head?.any Char.isDigit ∧ (∀ c ∈ lexeme.toList, isNumeral c) ∧
      '.' ∈ lexeme.toList
  | .string => '"' ∉ lexeme.toList
  | .bool b => Reserved.lower lexeme.toList = (toString b).toList
  | .identifier => ∃ word ∈ Reserved.keywords, lexeme.toList = Reserved.upper word.toList
  | _ => kind.spelling? = some lexeme

/-- How a token is written: a string between quotes, a keyword in any case, and everything else
as its lexeme. -/
def Writes (kind : Kind) (lexeme : String) (text : List Char) : Prop :=
  match kind with
  | .string => text = '"' :: (lexeme.toList ++ ['"'])
  | .identifier => Reserved.upper text = lexeme.toList
  | _ => text = lexeme.toList

/-- The characters that a token of a kind takes in if they follow it. -/
def goesOn : Kind → Char → Bool
  | .integer, c | .float, c => isNumeral c
  | .bool _, c | .identifier, c => isWordChar c
  | .less, c | .greater, c | .equal, c | .bang, c => c == '='
  | _, _ => false

/-- Whether a token of a kind that is followed by the text `rest` ends there. -/
def EndsBefore (kind : Kind) (rest : List Char) : Prop :=
  ∀ c ∈ rest.head?, kind.goesOn c = false

theorem admits_of_spelling {kind : Kind} {lexeme : String} (h : kind.spelling? = some lexeme) :
    kind.Admits lexeme := by
  cases kind <;> first | exact h | cases h

theorem writes_of_spelling {kind : Kind} {lexeme : String} (h : kind.spelling? = some lexeme) :
    kind.Writes lexeme lexeme.toList := by
  cases kind <;> first | rfl | cases h

theorem Admits.ne_endOfInput {kind : Kind} {lexeme : String} (h : kind.Admits lexeme) :
    kind ≠ .endOfInput := by
  rintro rfl
  exact nomatch h

end Kind

/-- Whether the character `c` before the text `rest` belongs to no token: it is a blank, or it is
stray and not doubled. -/
def IsGap (c : Char) (rest : List Char) : Prop :=
  isBlank c = true ∨ isStray c = true ∧ rest.head? ≠ some c

/-- `Layout cs ts`: the text `cs` is the tokens `ts` in order, with characters of gaps before,
between and after them. -/
inductive Layout : List Char → List Token → Prop
  | nil : Layout [] []
  | gap {c : Char} {cs : List Char} {ts : List Token} :
      IsGap c cs → Layout cs ts → Layout (c :: cs) ts
  | token {t : Token} {text cs : List Char} {ts : List Token} :
      t.kind.Admits t.lexeme → t.kind.Writes t.lexeme text → t.kind.EndsBefore cs →
      Layout cs ts → Layout (text ++ cs) (t :: ts)

theorem Layout.kind_ne {cs : List Char} {ts : List Token} (h : Layout cs ts) :
    ∀ t ∈ ts, t.kind ≠ .endOfInput := by
  induction h with
  | nil => exact fun _ ht => nomatch ht
  | gap _ _ ih => exact ih
  | token hadmits _ _ _ ih =>
      intro u hu
      rcases List.mem_cons.mp hu with rfl | hu
      · exact hadmits.ne_endOfInput
      · exact ih u hu

/-! ## What the first piece is -/

/-- `item.Fits text rest`: the item is written `text`, and it ends before `rest`. -/
inductive Item.Fits : Item → List Char → List Char → Prop
  | blank {c : Char} {rest : List Char} : isBlank c = true → Fits .blank [c] rest
  | stray {c : Char} {rest : List Char} :
      isStray c = true → rest.head? ≠ some c → Fits (.stray c) [c] rest
  | token {kind : Kind} {lexeme : String} {text rest : List Char} :
      kind.Admits lexeme → kind.Writes lexeme text → kind.EndsBefore rest →
      Fits (.token kind lexeme) text rest

section
variable {c d : Char} {cs : List Char} {kind : Kind} {item : Item} {n : Nat}

theorem take_length_takeWhile (p : Char → Bool) (cs : List Char) :
    cs.take (cs.takeWhile p).length = cs.takeWhile p :=
  (List.prefix_iff_eq_take.mp (List.takeWhile_prefix p)).symm

theorem drop_length_takeWhile (p : Char → Bool) (cs : List Char) :
    cs.drop (cs.takeWhile p).length = cs.dropWhile p := by
  conv => lhs; arg 2; rw [← List.takeWhile_append_dropWhile (p := p) (l := cs)]
  exact List.drop_left

theorem not_head?_dropWhile (p : Char → Bool) (cs : List Char) :
    ∀ c ∈ (cs.dropWhile p).head?, p c = false := by
  intro c hc
  have hstop := List.head?_dropWhile_not p cs
  rw [hc] at hstop
  exact hstop

theorem split_of_length_takeWhile_lt {p : Char → Bool} (h : (cs.takeWhile p).length < cs.length) :
    ∃ c rest, cs = cs.takeWhile p ++ c :: rest ∧ p c = false := by
  have hcs : cs.takeWhile p ++ cs.dropWhile p = cs := List.takeWhile_append_dropWhile
  cases hrest : cs.dropWhile p with
  | nil =>
      rw [hrest, List.append_nil] at hcs
      rw [hcs] at h
      exact absurd h (Nat.lt_irrefl _)
  | cons c rest =>
      rw [hrest] at hcs
      exact ⟨c, rest, hcs.symm, not_head?_dropWhile p cs c (by rw [hrest]; rfl)⟩

theorem spelling?_of_double? (h : double? c d = some kind) :
    kind.spelling? = some (String.ofList [c, d]) ∧ kind.goesOn = fun _ => false := by
  unfold double? at h
  split at h <;> cases h <;> exact ⟨rfl, rfl⟩

/-- A kind spelled with one character goes on only where an operator of two characters begins. -/
theorem spelling?_of_single? (h : single? c = some kind) :
    kind.spelling? = some (String.singleton c) ∧
      ∀ d, kind.goesOn d = true → ∃ kind', double? c d = some kind' := by
  unfold single? at h
  split at h <;> cases h <;> refine ⟨rfl, fun d hd => ?_⟩ <;>
    simp only [Kind.goesOn, Bool.false_eq_true, beq_iff_eq] at hd <;> exact ⟨_, by rw [hd]; rfl⟩

theorem double?_self (h : isStray c = true) : ∃ kind, double? c c = some kind := by
  simp only [isStray, Bool.or_eq_true, beq_iff_eq] at h
  rcases h with rfl | rfl <;> exact ⟨_, rfl⟩

/-! ### Reserved words -/

theorem Reserved.upper_lower (word : List Char) : upper (lower word) = upper word := by
  simp [upper, lower]

theorem fits_bool {word rest : List Char} {b : Bool}
    (h : Reserved.lower word = (toString b).toList)
    (hend : ∀ c ∈ rest.head?, isWordChar c = false) :
    (Item.token (.bool b) (String.ofList word)).Fits word rest := by
  refine .token ?_ ?_ hend
  · rwa [Kind.Admits, String.toList_ofList]
  · exact String.toList_ofList.symm

theorem lookup?_fits {word rest : List Char} {lexeme : String}
    (h : Reserved.lookup? word = some (kind, lexeme))
    (hend : ∀ c ∈ rest.head?, isWordChar c = false) : (Item.token kind lexeme).Fits word rest := by
  simp only [Reserved.lookup?] at h
  split at h
  next htrue =>
    cases h
    exact fits_bool (String.toList_ofList.symm.trans (congrArg String.toList htrue)) hend
  next =>
    split at h
    next hfalse =>
      cases h
      exact fits_bool (String.toList_ofList.symm.trans (congrArg String.toList hfalse)) hend
    next =>
      split at h
      next hkeyword =>
        cases h
        refine .token ⟨_, hkeyword, ?_⟩ ?_ hend
        · rw [String.toList_ofList, String.toList_ofList, Reserved.upper_lower]
        · exact String.toList_ofList.symm
      next => exact nomatch h

/-! ### Readers of a first piece -/

theorem firstWord_fits (h : firstWord c cs = .ok (item, n)) :
    item.Fits (c :: cs.take n) (cs.drop n) := by
  simp only [firstWord] at h
  split at h
  next kind lexeme hlookup =>
    cases h
    rw [take_length_takeWhile, drop_length_takeWhile]
    exact lookup?_fits hlookup (not_head?_dropWhile isWordChar cs)
  next => exact nomatch h

theorem firstString_fits (h : firstString cs = .ok (item, n)) :
    item.Fits ('"' :: cs.take n) (cs.drop n) := by
  simp only [firstString] at h
  split at h
  next hlt =>
    cases h
    have hbody : '"' ∉ cs.takeWhile (· != '"') := by
      intro hquote
      simpa using List.mem_takeWhile_imp hquote
    obtain ⟨c, rest, hcs, hc⟩ := split_of_length_takeWhile_lt hlt
    obtain rfl : c = '"' := by simpa using hc
    generalize cs.takeWhile (· != '"') = body at hbody hcs
    subst hcs
    rw [List.take_length_add_append]
    refine .token ?_ ?_ (fun _ _ => rfl)
    · rwa [Kind.Admits, String.toList_ofList]
    · rw [Kind.Writes, String.toList_ofList]
      rfl
  next => exact nomatch h

theorem firstNumber_fits (hc : c.isDigit = true) (h : firstNumber c cs = (item, n)) :
    item.Fits (c :: cs.take n) (cs.drop n) := by
  cases h
  have hnumerals : ∀ d ∈ c :: cs.takeWhile isNumeral, isNumeral d = true := by
    intro d hd
    rcases List.mem_cons.mp hd with rfl | hd
    · exact Bool.or_eq_true_iff.mpr (Or.inl hc)
    · exact List.mem_takeWhile_imp hd
  have hend := not_head?_dropWhile isNumeral cs
  rw [take_length_takeWhile, drop_length_takeWhile]
  generalize cs.takeWhile isNumeral = tail at hnumerals
  unfold numberKind
  split
  next hpoint =>
    refine .token ?_ ?_ hend
    · rw [Kind.Admits, String.toList_ofList]
      exact ⟨hc, hnumerals, hpoint⟩
    · exact String.toList_ofList.symm
  next hpoint =>
    refine .token ?_ ?_ hend
    · rw [Kind.Admits, String.toList_ofList]
      refine ⟨List.cons_ne_nil _ _, fun d hd => ?_⟩
      -- a numeral is a digit or a point, and there is no point
      rcases Bool.or_eq_true_iff.mp (hnumerals d hd) with hdigit | hd'
      · exact hdigit
      · obtain rfl := eq_of_beq hd'
        exact absurd hd hpoint
    · exact String.toList_ofList.symm

theorem firstOther_fits (hdouble : cs.head?.bind (double? c) = none)
    (h : firstOther c cs = .ok (item, n)) : item.Fits (c :: cs.take n) (cs.drop n) := by
  have hnext : ∀ d ∈ cs.head?, double? c d = none := by
    intro d hd
    rw [hd] at hdouble
    exact hdouble
  unfold firstOther at h
  split at h
  next kind hkind =>
    cases h
    obtain ⟨hspelling, hgoes⟩ := spelling?_of_single? hkind
    refine .token (Kind.admits_of_spelling hspelling) ?_ ?_
    · simpa using Kind.writes_of_spelling hspelling
    · intro d hd
      refine Bool.eq_false_iff.mpr fun hgo => ?_
      obtain ⟨kind', hkind'⟩ := hgoes d hgo
      exact nomatch hkind'.symm.trans (hnext d hd)
  next =>
    split at h
    next hstray =>
      cases h
      refine .stray hstray ?_
      intro hsame
      obtain ⟨kind, hkind⟩ := double?_self hstray
      exact nomatch hkind.symm.trans (hnext c hsame)
    next =>
      split at h
      next hquote =>
        subst hquote
        exact firstString_fits h
      next =>
        split at h
        next hdigit => exact firstNumber_fits hdigit (Except.ok.inj h)
        next =>
          split at h
          next => exact firstWord_fits h
          next => exact nomatch h

/-- The first piece of a text is what it is said to be, and as long as it can be. -/
theorem first_fits (h : first c cs = .ok (item, n)) : item.Fits (c :: cs.take n) (cs.drop n) := by
  unfold first at h
  split at h
  next hblank =>
    cases h
    exact .blank hblank
  next =>
    split at h
    next kind hkind =>
      cases h
      obtain ⟨d, hd, hkind⟩ := Option.bind_eq_some_iff.mp hkind
      obtain ⟨cs, rfl⟩ : ∃ cs', cs = d :: cs' := by
        cases cs with
        | nil => exact nomatch hd
        | cons d' cs => exact ⟨cs, by rw [Option.some.inj hd]⟩
      obtain ⟨hspelling, hgoes⟩ := spelling?_of_double? hkind
      refine .token (Kind.admits_of_spelling hspelling) ?_ (fun e _ => by rw [hgoes])
      simpa using Kind.writes_of_spelling hspelling
    next hdouble => exact firstOther_fits hdouble h

end

/-! ## The layout of a text -/

theorem Layout.cons {item : Item} {text rest : List Char} {pieces : List Piece}
    (hitem : item.Fits text rest)
    (hrest : ∀ p, Layout rest ((events p pieces).filterMap Event.token?)) (p : Position) :
    Layout (text ++ rest) ((events p (⟨text, item⟩ :: pieces)).filterMap Event.token?) := by
  cases hitem with
  | blank hblank => exact .gap (Or.inl hblank) (hrest _)
  | stray hstray hnext => exact .gap (Or.inr ⟨hstray, hnext⟩) (hrest _)
  | token hadmits hwrites hend => exact .token hadmits hwrites hend (hrest _)

theorem layout_of_cut {cs : List Char} (h : (cut cs).fault = none) (p : Position) :
    Layout cs ((events p (cut cs).pieces).filterMap Event.token?) := by
  fun_induction cut cs generalizing p with
  | case1 => exact .nil
  | case2 c cs fault hfirst => exact nomatch h
  | case3 c cs item n hfirst rest ih =>
      have hlayout := Layout.cons (first_fits hfirst) (ih h) p
      rwa [List.cons_append, List.take_append_drop] at hlayout

theorem scan_eq {s : String} (h : (cut s.toList).fault = none) :
    scan s = .ok ((events .start (cut s.toList).pieces).filterMap Event.token? ++
      [endAt (placeAfter .start (cut s.toList).pieces)]) := by
  simp only [scan, Trace.ofSource, Trace.ofCut, Trace.tokens, h]
  rfl

theorem scan_eq_error {s : String} {fault : Fault} (h : (cut s.toList).fault = some fault) :
    scan s = .error (fault.locate (placeAfter .start (cut s.toList).pieces)) := by
  simp only [scan, Trace.ofSource, Trace.ofCut, Trace.tokens, h]
  rfl

theorem fault_eq_none_of_scan {s : String} {ts : List Token} (h : scan s = .ok ts) :
    (cut s.toList).fault = none := by
  cases hcut : (cut s.toList).fault with
  | none => rfl
  | some fault =>
      rw [scan_eq_error hcut] at h
      exact nomatch h

/-- The tokens of a text that scans are laid out in it, and the end marker is their last. -/
theorem scan_layout (s : String) (ts : List Token) (h : scan s = .ok ts) :
    ∃ body last, ts = body ++ [last] ∧ last.kind = .endOfInput ∧
      (∀ t ∈ body, t.kind ≠ .endOfInput) ∧ Layout s.toList body := by
  have hfault := fault_eq_none_of_scan h
  have hlayout := layout_of_cut hfault .start
  rw [scan_eq hfault] at h
  cases h
  exact ⟨_, _, rfl, rfl, hlayout.kind_ne, hlayout⟩

/-- A keyword in mixed case, an operator right after it, and a gap at the end. -/
theorem scan_layout_of_keyword :
    let body : List Token := [⟨.identifier, "LET", .start⟩, ⟨.lessEqual, "<=", ⟨1, 4⟩⟩]
    scan "Let<= &" = .ok (body ++ [endAt ⟨1, 8⟩]) ∧ Layout "Let<= &".toList body := by
  intro body
  have hscan : scan "Let<= &" = .ok (body ++ [endAt ⟨1, 8⟩]) := by decide +kernel
  obtain ⟨body', last, hts, -, -, hlayout⟩ := scan_layout _ _ hscan
  have hbody : body' = body := (List.append_inj' hts rfl).1.symm
  rw [hbody] at hlayout
  exact ⟨hscan, hlayout⟩

end LineCalc.Token
