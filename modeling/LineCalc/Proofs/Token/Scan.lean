/-
# `LineCalc.Proofs.Token.Scan` — every text that is laid out scans

The converse of a layout: what fits before a text is what is read there, so a text is cut
where it was put together (`cut_of_fits`), and a text that is laid out with some tokens
scans to just these tokens, up to their places (`scan_of_layout`).

A first piece is told by its first character.  One that is no punctuation begins a number
or a word; the others are blanks, quotes, stray characters and the beginnings of what has
one spelling, and there at most the next character matters.
-/
import LineCalc.Proofs.Token.Layout

namespace LineCalc.Token

/-! ## Characters -/

/-- The characters that neither numbers nor words are made of and that can yet begin a piece. -/
def punctuation : List Char :=
  [' ', '\t', '\r', '\n', '(', ')', '\x7b', '\x7d', '+', '-', '*', '/', '%', ';', '!', '=', '<', '>',
   '&', '|', '"']

section
variable {c d : Char} {cs text rest : List Char} {kind : Kind} {lexeme : String} {item : Item}

theorem double?_eq_none (hc : c ∉ punctuation) (d : Char) : double? c d = none := by
  unfold double?
  split <;> first | rfl | exact absurd (by decide) hc

theorem single?_eq_none (hc : c ∉ punctuation) : single? c = none := by
  unfold single?
  split <;> first | rfl | exact absurd (by decide) hc

theorem first_eq_firstOther (hblank : isBlank c = false)
    (hdouble : ∀ d ∈ cs.head?, double? c d = none) : first c cs = firstOther c cs := by
  have hnone : cs.head?.bind (double? c) = none := by
    cases cs with
    | nil => rfl
    | cons d cs => exact hdouble d rfl
  rw [first, hblank, hnone]
  rfl

theorem first_of_not_punctuation (hc : c ∉ punctuation) (cs : List Char) :
    first c cs =
      if c.isDigit then .ok (firstNumber c cs)
      else if isWordStart c then firstWord c cs
      else .error (.unknownCharacter c) := by
  have hblank : isBlank c = false := by
    simp only [punctuation, List.mem_cons, not_or] at hc
    simp [isBlank, hc]
  have hstray : isStray c = false := by
    simp only [punctuation, List.mem_cons, not_or] at hc
    simp [isStray, hc]
  have hquote : c ≠ '"' := by
    rintro rfl
    exact hc (by decide)
  rw [first_eq_firstOther hblank fun d _ => double?_eq_none hc d, firstOther, single?_eq_none hc,
    hstray, if_neg hquote]
  rfl

theorem takeWhile_append_of_stop {p : Char → Bool} (hcs : ∀ c ∈ cs, p c = true)
    (hrest : ∀ c ∈ rest.head?, p c = false) : (cs ++ rest).takeWhile p = cs := by
  rw [List.takeWhile_append_of_pos hcs]
  cases rest with
  | nil => exact List.append_nil cs
  | cons c rest =>
      have hc : p c = false := hrest c rfl
      rw [List.takeWhile_cons_of_neg (by simp [hc]), List.append_nil]

theorem first_number (hc : c.isDigit = true) (hcs : ∀ d ∈ cs, isNumeral d = true)
    (hrest : ∀ d ∈ rest.head?, isNumeral d = false) :
    first c (cs ++ rest)
      = .ok (.token (numberKind (c :: cs)) (String.ofList (c :: cs)), cs.length) := by
  have hpunctuation : c ∉ punctuation := by
    intro hmem
    have hnone : ∀ d ∈ punctuation, d.isDigit = false := by simp [punctuation]
    exact absurd hc (Bool.eq_false_iff.mp (hnone c hmem))
  rw [first_of_not_punctuation hpunctuation, if_pos hc, firstNumber,
    takeWhile_append_of_stop hcs hrest]

theorem isDigit_of_isWordStart (hc : isWordStart c = true) : c.isDigit = false := by
  rcases Bool.or_eq_true_iff.mp hc with halpha | hscore
  · simp only [Char.isAlpha, Char.isUpper, Char.isLower, Char.isDigit] at halpha ⊢
    grind
  · obtain rfl := eq_of_beq hscore
    rfl

theorem first_wordStart (hc : isWordStart c = true) (cs : List Char) :
    first c cs = firstWord c cs := by
  have hpunctuation : c ∉ punctuation := by
    intro hmem
    have hnone : ∀ d ∈ punctuation, isWordStart d = false := by simp [punctuation, isWordStart]
    exact absurd hc (Bool.eq_false_iff.mp (hnone c hmem))
  rw [first_of_not_punctuation hpunctuation, isDigit_of_isWordStart hc, if_pos hc]
  rfl

theorem first_word (hc : isWordStart c = true) (hcs : ∀ d ∈ cs, isWordChar d = true)
    (hrest : ∀ d ∈ rest.head?, isWordChar d = false)
    (hlookup : Reserved.lookup? (c :: cs) = some (kind, lexeme)) :
    first c (cs ++ rest) = .ok (.token kind lexeme, cs.length) := by
  simp only [first_wordStart hc, firstWord, takeWhile_append_of_stop hcs hrest, hlookup]

theorem first_quote (cs : List Char) : first '"' cs = firstString cs := by
  rw [first_eq_firstOther rfl (fun d _ => by unfold double?; split <;> first | rfl | contradiction)]
  rfl

theorem first_string {body : List Char} (hbody : '"' ∉ body) (rest : List Char) :
    first '"' (body ++ '"' :: rest)
      = .ok (.token .string (String.ofList body), body.length + 1) := by
  have hstop : (body ++ '"' :: rest).takeWhile (· != '"') = body := by
    refine takeWhile_append_of_stop (fun c hc => ?_) (fun c hc => ?_)
    · simp only [bne_iff_ne]
      rintro rfl
      exact hbody hc
    · cases hc
      rfl
  rw [first_quote]
  simp [firstString, hstop]

/-! ### Words -/

theorem Reserved.lower_upper (word : List Char) : lower (upper word) = lower word := by
  simp [upper, lower]

theorem Reserved.keyword_letters : ∀ key ∈ keywords,
    lower key.toList = key.toList ∧ key.toList ≠ [] ∧ key.toList.all Char.isAlpha = true := by
  decide +kernel

theorem Reserved.lookup?_bool {word : List Char} {b : Bool}
    (h : Reserved.lower word = (toString b).toList) :
    Reserved.lookup? word = some (.bool b, String.ofList word) := by
  simp only [Reserved.lookup?, h]
  cases b <;> rfl

theorem Reserved.lookup?_keyword {word : List Char} {key : String} (hkey : key ∈ Reserved.keywords)
    (h : Reserved.lower word = key.toList) :
    Reserved.lookup? word = some (.identifier, String.ofList (Reserved.upper word)) := by
  have hbool : ∀ key ∈ Reserved.keywords, key ≠ "true" ∧ key ≠ "false" := by decide
  simp only [Reserved.lookup?, h, String.ofList_toList, if_neg (hbool key hkey).1,
    if_neg (hbool key hkey).2, if_pos hkey]

theorem Reserved.isAlpha_of_lower {word : List Char}
    (h : (Reserved.lower word).all Char.isAlpha = true) : ∀ c ∈ word, c.isAlpha = true := by
  intro c hc
  rw [← Char.isAlpha_toLower_eq_isAlpha]
  exact List.all_eq_true.mp h _ (List.mem_map_of_mem hc)

theorem Reserved.exists_keyword (hadmits : Kind.identifier.Admits lexeme)
    (hwrites : Kind.identifier.Writes lexeme text) :
    ∃ key ∈ keywords, lower text = key.toList := by
  obtain ⟨key, hkey, hlexeme⟩ := hadmits
  have hupper : upper text = lexeme.toList := hwrites
  refine ⟨key, hkey, ?_⟩
  rw [← lower_upper, hupper, hlexeme, lower_upper, (keyword_letters key hkey).1]

theorem spelling?_cases (h : kind.spelling? = some lexeme) :
    (∃ c, lexeme.toList = [c] ∧ single? c = some kind) ∨
      ∃ c d, lexeme.toList = [c, d] ∧ double? c d = some kind := by
  cases kind <;> simp only [Kind.spelling?, Option.some.injEq, reduceCtorEq] at h <;> subst h <;>
    simp [single?, double?]

theorem double?_of_single? (hc : single? c = some kind) (hd : kind.goesOn d = false) :
    double? c d = none := by
  unfold double?
  split <;> first | rfl | (cases hc <;> cases hd)

theorem isBlank_of_single? (hc : single? c = some kind) : isBlank c = false := by
  unfold single? at hc
  split at hc <;> cases hc <;> rfl

theorem isBlank_of_double? (hc : double? c d = some kind) : isBlank c = false := by
  unfold double? at hc
  split at hc <;> cases hc <;> rfl

theorem first_spelled (h : kind.spelling? = some lexeme) (hend : kind.EndsBefore rest) :
    ∃ c cs, lexeme.toList = c :: cs ∧ first c (cs ++ rest) = .ok (.token kind lexeme, cs.length) := by
  rcases spelling?_cases h with ⟨c, hlexeme, hc⟩ | ⟨c, d, hlexeme, hc⟩
  · refine ⟨c, [], hlexeme, ?_⟩
    have hsingleton : String.singleton c = lexeme := by
      rw [← String.toList_inj, hlexeme, String.toList_singleton]
    rw [List.nil_append, first_eq_firstOther (isBlank_of_single? hc)
      fun d hd => double?_of_single? hc (hend d hd)]
    simp only [firstOther, hc, hsingleton]
    rfl
  · refine ⟨c, [d], hlexeme, ?_⟩
    have hpair : String.ofList [c, d] = lexeme := by rw [← hlexeme, String.ofList_toList]
    rw [first, isBlank_of_double? hc]
    simp only [List.cons_append, List.nil_append, List.head?_cons, Option.bind_some, hc,
      List.take_succ_cons, List.take_zero, hpair]
    rfl

theorem isWordChar_of_isAlpha (hc : c.isAlpha = true) : isWordChar c = true := by
  simp [isWordChar, Char.isAlphanum, hc]

theorem isWordChar_of_isWordStart (hc : isWordStart c = true) : isWordChar c = true := by
  rcases Bool.or_eq_true_iff.mp hc with halpha | hscore
  · exact isWordChar_of_isAlpha halpha
  · exact Bool.or_eq_true_iff.mpr (Or.inr hscore)

theorem first_reserved {small : List Char} (hsmall : Reserved.lower text = small)
    (hne : small ≠ []) (halpha : small.all Char.isAlpha = true)
    (hlookup : Reserved.lookup? text = some (kind, lexeme))
    (hrest : ∀ d ∈ rest.head?, isWordChar d = false) :
    ∃ c cs, text = c :: cs ∧ first c (cs ++ rest) = .ok (.token kind lexeme, cs.length) := by
  subst hsmall
  have hletters := Reserved.isAlpha_of_lower halpha
  cases text with
  | nil => exact absurd rfl hne
  | cons c cs =>
      have hc : isWordStart c = true :=
        Bool.or_eq_true_iff.mpr (Or.inl (hletters c List.mem_cons_self))
      exact ⟨c, cs, rfl, first_word hc
        (fun d hd => isWordChar_of_isAlpha (hletters d (List.mem_cons_of_mem c hd))) hrest hlookup⟩

theorem double?_of_isStray (hc : isStray c = true) (hd : d ≠ c) : double? c d = none := by
  unfold double?
  split <;> first | rfl | exact absurd rfl hd | exact absurd hc (by decide)

theorem first_stray (hc : isStray c = true) (hrest : rest.head? ≠ some c) :
    first c rest = .ok (.stray c, 0) := by
  have hdouble : ∀ d ∈ rest.head?, double? c d = none := by
    intro d hd
    refine double?_of_isStray hc ?_
    rintro rfl
    exact hrest hd
  have hc' := hc
  simp only [isStray, Bool.or_eq_true, beq_iff_eq] at hc'
  rcases hc' with rfl | rfl
  · exact first_eq_firstOther rfl hdouble
  · exact first_eq_firstOther rfl hdouble

/-- What fits before a text is what is read there. -/
theorem first_of_fits (h : item.Fits text rest) :
    ∃ c cs, text = c :: cs ∧ first c (cs ++ rest) = .ok (item, cs.length) := by
  cases h with
  | @blank c _ hblank =>
      refine ⟨c, [], rfl, ?_⟩
      rw [first, hblank]
      rfl
  | @stray c _ hstray hrest => exact ⟨c, [], rfl, first_stray hstray hrest⟩
  | @token kind lexeme _ _ hadmits hwrites hend =>
      cases kind with
      | integer =>
          obtain ⟨hne, hdigits⟩ := hadmits
          obtain rfl : text = lexeme.toList := hwrites
          obtain ⟨c, cs, hlexeme⟩ := List.exists_cons_of_ne_nil hne
          rw [hlexeme] at hdigits
          have hnumerals : ∀ d ∈ cs, isNumeral d = true := fun d hd =>
            Bool.or_eq_true_iff.mpr (Or.inl (hdigits d (List.mem_cons_of_mem c hd)))
          have hpoint : '.' ∉ c :: cs := fun hmem => nomatch hdigits '.' hmem
          refine ⟨c, cs, hlexeme, ?_⟩
          rw [first_number (hdigits c List.mem_cons_self) hnumerals hend, numberKind,
            if_neg hpoint, ← hlexeme, String.ofList_toList]
      | float =>
          obtain ⟨hdigit, hnumerals, hpoint⟩ := hadmits
          obtain rfl : text = lexeme.toList := hwrites
          cases hlexeme : lexeme.toList with
          | nil => rw [hlexeme] at hpoint; exact nomatch hpoint
          | cons c cs =>
              rw [hlexeme] at hdigit hnumerals hpoint
              refine ⟨c, cs, rfl, ?_⟩
              rw [first_number hdigit (fun d hd => hnumerals d (List.mem_cons_of_mem c hd)) hend,
                numberKind, if_pos hpoint, ← hlexeme, String.ofList_toList]
      | string =>
          obtain rfl : text = '"' :: (lexeme.toList ++ ['"']) := hwrites
          refine ⟨'"', lexeme.toList ++ ['"'], rfl, ?_⟩
          rw [List.append_assoc, List.singleton_append, first_string hadmits,
            String.ofList_toList, List.length_append, List.length_singleton]
      | bool b =>
          obtain rfl : text = lexeme.toList := hwrites
          have hlookup := Reserved.lookup?_bool hadmits
          rw [String.ofList_toList] at hlookup
          refine first_reserved hadmits ?_ ?_ hlookup hend
          · cases b <;> exact List.cons_ne_nil _ _
          · cases b <;> rfl
      | identifier =>
          obtain ⟨key, hkey, hlower⟩ := Reserved.exists_keyword hadmits hwrites
          have hupper : Reserved.upper text = lexeme.toList := hwrites
          obtain ⟨-, hne, halpha⟩ := Reserved.keyword_letters key hkey
          have hlookup := Reserved.lookup?_keyword hkey hlower
          rw [hupper, String.ofList_toList] at hlookup
          exact first_reserved hlower hne halpha hlookup hend
      | _ =>
          obtain rfl : text = lexeme.toList := hwrites
          exact first_spelled hadmits hend

theorem cut_of_fits (h : item.Fits text rest) :
    cut (text ++ rest) = ⟨⟨text, item⟩ :: (cut rest).pieces, (cut rest).fault⟩ := by
  obtain ⟨c, cs, rfl, hfirst⟩ := first_of_fits h
  rw [List.cons_append, cut, hfirst]
  simp only [List.take_left, List.drop_left]

end

/-! ## The whole text -/

def unplaced (t : Token) : Kind × String := (t.kind, t.lexeme)

theorem Layout.cut_eq {cs : List Char} {ts : List Token} (h : Layout cs ts) :
    (cut cs).fault = none ∧ ∀ p,
      ((events p (cut cs).pieces).filterMap Event.token?).map unplaced = ts.map unplaced := by
  induction h with
  | nil =>
      rw [cut]
      exact ⟨rfl, fun _ => rfl⟩
  | @gap c cs ts hgap _ ih =>
      rcases hgap with hblank | ⟨hstray, hnext⟩
      · have hcut : cut (c :: cs) = _ := cut_of_fits (.blank hblank)
        rw [hcut]
        exact ⟨ih.1, fun p => ih.2 _⟩
      · have hcut : cut (c :: cs) = _ := cut_of_fits (.stray hstray hnext)
        rw [hcut]
        exact ⟨ih.1, fun p => ih.2 _⟩
  | @token t text cs ts hadmits hwrites hend _ ih =>
      rw [cut_of_fits (.token hadmits hwrites hend)]
      exact ⟨ih.1, fun p => congrArg (List.cons t.unplaced) (ih.2 _)⟩

/-- A text that is laid out scans to the tokens it is laid out with, and to the end marker. -/
theorem scan_of_layout {s : String} {body : List Token} (h : Layout s.toList body) :
    ∃ ts place, scan s = .ok (ts ++ [endAt place]) ∧ ts.map unplaced = body.map unplaced := by
  obtain ⟨hfault, hmet⟩ := h.cut_eq
  exact ⟨_, _, scan_eq hfault, hmet .start⟩

/-- The tokens of a text are those it is laid out with, and the end marker. -/
theorem layout_of_scan {s : String} {ts : List Token} (h : scan s = .ok ts) :
    ∃ body place, ts = body ++ [endAt place] ∧ Layout s.toList body := by
  have hfault := fault_eq_none_of_scan h
  rw [scan_eq hfault] at h
  obtain rfl := Except.ok.inj h
  exact ⟨_, _, rfl, layout_of_cut hfault .start⟩

end LineCalc.Token
