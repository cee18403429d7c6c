/-
# `LineCalc.Proofs.Token.Case` — the case of letters outside of strings

Outside of strings the case of letters does not matter.  Two texts that differ in nothing
else (`SameUpToCase`) are cut in the same way, piece by piece, and what is left of both
differs in nothing else again (`Cuts.recased`).  So the tokens are the same, at the same
places, only that a word of truth keeps the letters it is written with; and where one text
has no more pieces, the same is wrong with the other (`Fault.Blames.recased`).

Which letters count is a matter of the text in front of them: there is an even number of
quotes.  The relation that goes along a cut has this as a flag, which every quote changes
(`RecasedFrom`).  Between the pieces the flag is down, and a string raises and lowers it.
-/
import LineCalc.Proofs.Token.Seam

namespace LineCalc

namespace Token

/-! ## Letters -/

section
variable {c d : Char} {text text' : List Char}

theorem eq_or_isAlpha_of_toLower_eq (h : c.toLower = d.toLower) :
    c = d ∨ c.isAlpha = true ∧ d.isAlpha = true := by
  have halpha : c.isAlpha = d.isAlpha := by
    rw [← Char.isAlpha_toLower_eq_isAlpha, h, Char.isAlpha_toLower_eq_isAlpha]
  cases hc : c.isAlpha with
  | true => exact Or.inr ⟨rfl, halpha ▸ hc⟩
  | false =>
      have hd : d.isAlpha = false := halpha ▸ hc
      have hcupper : ¬ c.isUpper = true := by simp [(Bool.or_eq_false_iff.mp hc).1]
      have hdupper : ¬ d.isUpper = true := by simp [(Bool.or_eq_false_iff.mp hd).1]
      rw [Char.toLower_eq_of_not_isUpper hcupper, Char.toLower_eq_of_not_isUpper hdupper] at h
      exact Or.inl h

theorem eq_of_toLower_eq (h : c.toLower = d.toLower) (hc : c.isAlpha = false) : c = d := by
  rcases eq_or_isAlpha_of_toLower_eq h with heq | ⟨halpha, -⟩
  · exact heq
  · rw [hc] at halpha
    exact absurd halpha Bool.false_ne_true

theorem isNumeral_of_isAlpha (hc : c.isAlpha = true) : isNumeral c = false := by
  have hdigit := isDigit_of_isWordStart (Bool.or_eq_true_iff.mpr (Or.inl hc))
  have hpoint : c ≠ '.' := by
    rintro rfl
    exact nomatch hc
  simp [isNumeral, hdigit, hpoint]

/-- All letters are alike to the end of a token: those of a word take them in, and no others. -/
theorem Kind.goesOn_of_isAlpha (hc : c.isAlpha = true) (kind : Kind) :
    kind.goesOn c = kind.goesOn 'a' := by
  have hequal : c ≠ '=' := by
    rintro rfl
    exact nomatch hc
  cases kind with
  | integer | float => exact isNumeral_of_isAlpha hc
  | bool _ | identifier => exact isWordChar_of_isAlpha hc
  | less | greater | equal | bang => exact beq_eq_false_iff_ne.mpr hequal
  | _ => rfl

theorem Kind.goesOn_congr (h : c.toLower = d.toLower) (kind : Kind) :
    kind.goesOn c = kind.goesOn d := by
  rcases eq_or_isAlpha_of_toLower_eq h with rfl | ⟨hc, hd⟩
  · rfl
  · rw [goesOn_of_isAlpha hc, goesOn_of_isAlpha hd]

theorem forall₂_of_lower_eq (h : Reserved.lower text = Reserved.lower text') :
    List.Forall₂ (fun c d => c.toLower = d.toLower) text text' := by
  have hlower : List.Forall₂ (· = ·) (text.map Char.toLower) (text'.map Char.toLower) := by
    rw [List.forall₂_eq_eq_eq]
    exact h
  rwa [List.forall₂_map_left_iff, List.forall₂_map_right_iff] at hlower

theorem next_congr (h : c.toLower = d.toLower) (p : Position) : p.next c = p.next d := by
  rcases eq_or_isAlpha_of_toLower_eq h with rfl | ⟨hc, hd⟩
  · rfl
  · have hc' : c ≠ '\n' := by
      rintro rfl
      exact nomatch hc
    have hd' : d ≠ '\n' := by
      rintro rfl
      exact nomatch hd
    simp only [Position.next, if_neg hc', if_neg hd']

theorem after_congr (h : Reserved.lower text = Reserved.lower text') (p : Position) :
    p.after text = p.after text' := by
  have hletters := forall₂_of_lower_eq h
  clear h
  induction hletters generalizing p with
  | nil => rfl
  | cons hcd _ ih =>
      rw [Position.after_cons, Position.after_cons, next_congr hcd]
      exact ih _

end

/-! ## Texts that differ in case -/

/-- Two texts of one length that differ at most in the case of letters with an even number of quotes
in front of them. -/
structure SameUpToCase (cs ds : List Char) : Prop where
  length_eq : cs.length = ds.length
  same_or_letter : ∀ i < cs.length, cs[i]? = ds[i]? ∨
    cs[i]?.map Char.toLower = ds[i]?.map Char.toLower ∧ Even ((cs.take i).count '"')

/-- `RecasedFrom inside cs ds`: two texts that differ at most in the case of letters outside of
strings, where `inside` tells whether they begin inside of one. -/
inductive RecasedFrom : Bool → List Char → List Char → Prop
  | nil {inside : Bool} : RecasedFrom inside [] []
  | quote {inside : Bool} {cs ds : List Char} :
      RecasedFrom (!inside) cs ds → RecasedFrom inside ('"' :: cs) ('"' :: ds)
  | inside {c : Char} {cs ds : List Char} :
      c ≠ '"' → RecasedFrom true cs ds → RecasedFrom true (c :: cs) (c :: ds)
  | outside {c d : Char} {cs ds : List Char} :
      c ≠ '"' → c.toLower = d.toLower → RecasedFrom false cs ds →
      RecasedFrom false (c :: cs) (d :: ds)

section
variable {inside : Bool} {cs ds text text' rest rest' : List Char}

theorem RecasedFrom.same {c : Char} (hc : c ≠ '"') (h : RecasedFrom inside cs ds) :
    RecasedFrom inside (c :: cs) (c :: ds) := by
  cases inside with
  | true => exact .inside hc h
  | false => exact .outside hc rfl h

/-- What is known offset by offset holds along the text: a quote makes an even number of quotes odd
and changes the side. -/
theorem recasedFrom_of_forall (hlength : cs.length = ds.length)
    (h : ∀ i < cs.length, cs[i]? = ds[i]? ∨ cs[i]?.map Char.toLower = ds[i]?.map Char.toLower ∧
      Even (inside.toNat + (cs.take i).count '"')) : RecasedFrom inside cs ds := by
  induction cs generalizing inside ds with
  | nil =>
      rw [List.eq_nil_of_length_eq_zero hlength.symm]
      exact .nil
  | cons c cs ih =>
      cases ds with
      | nil => exact nomatch hlength
      | cons d ds =>
          have hhead : c = d ∨ c.toLower = d.toLower ∧ inside = false := by
            have h₀ := h 0 (Nat.zero_lt_succ _)
            cases inside <;> simpa using h₀
          have htail : ∀ i < cs.length, cs[i]? = ds[i]? ∨
              cs[i]?.map Char.toLower = ds[i]?.map Char.toLower ∧
                Even (inside.toNat + ((c :: cs).take (i + 1)).count '"') :=
            fun i hi => h (i + 1) (Nat.succ_lt_succ hi)
          have hrests : cs.length = ds.length := Nat.succ.inj hlength
          by_cases hc : c = '"'
          · subst hc
            -- a quote is no letter, so it stands in both texts
            have hd : d = '"' := by
              rcases hhead with hd | ⟨hd, -⟩
              · exact hd.symm
              · exact (eq_of_toLower_eq hd rfl).symm
            subst hd
            refine .quote (ih hrests fun i hi => (htail i hi).imp_right fun ⟨hlower, heven⟩ => ?_)
            refine ⟨hlower, ?_⟩
            rw [List.take_succ_cons, List.count_cons_self, ← Nat.add_assoc] at heven
            cases inside <;> simpa [Nat.even_add_one, Nat.even_add] using heven
          · have hrest : RecasedFrom inside cs ds := by
              refine ih hrests fun i hi => ?_
              have hi' := htail i hi
              rwa [List.take_succ_cons, List.count_cons_of_ne hc] at hi'
            rcases hhead with rfl | ⟨hlower, rfl⟩
            · exact hrest.same hc
            · exact .outside hc hlower hrest

theorem SameUpToCase.recasedFrom (h : SameUpToCase cs ds) : RecasedFrom false cs ds := by
  refine recasedFrom_of_forall h.length_eq fun i hi => ?_
  simpa using h.same_or_letter i hi

theorem RecasedFrom.exists_of_mem_head? (h : RecasedFrom inside cs ds) :
    ∀ d ∈ ds.head?, ∃ c ∈ cs.head?, c.toLower = d.toLower := by
  intro d hd
  cases h with
  | nil => exact nomatch hd
  | quote _ => exact ⟨_, rfl, by rw [Option.some.inj hd]⟩
  | inside _ _ => exact ⟨_, rfl, by rw [Option.some.inj hd]⟩
  | outside _ hlower _ => exact ⟨_, rfl, by rw [hlower, Option.some.inj hd]⟩

/-- What begins with no quotes stands against a text of the same letters, and inside of a string
against itself. -/
theorem RecasedFrom.split (h : RecasedFrom inside (text ++ rest) ds) (htext : '"' ∉ text) :
    ∃ text' rest', ds = text' ++ rest' ∧ Reserved.lower text = Reserved.lower text' ∧
      (inside = true → text = text') ∧ RecasedFrom inside rest rest' := by
  induction text generalizing ds with
  | nil => exact ⟨[], ds, rfl, rfl, fun _ => rfl, h⟩
  | cons c text ih =>
      have htail : '"' ∉ text := fun hmem => htext (List.mem_cons_of_mem c hmem)
      cases h with
      | quote _ => exact absurd List.mem_cons_self htext
      | inside _ h =>
          obtain ⟨text', rest', rfl, hlower, hsame, hrest⟩ := ih h htail
          exact ⟨c :: text', rest', rfl, congrArg (List.cons _) hlower,
            fun hinside => congrArg (List.cons c) (hsame hinside), hrest⟩
      | outside _ hcd h =>
          obtain ⟨text', rest', rfl, hlower, -, hrest⟩ := ih h htail
          exact ⟨_ :: text', rest', rfl, congrArg₂ List.cons hcd hlower, nofun, hrest⟩

theorem Kind.EndsBefore.recased {kind : Kind} (h : kind.EndsBefore rest)
    (hrest : RecasedFrom inside rest rest') : kind.EndsBefore rest' := by
  intro d hd
  obtain ⟨c, hc, hlower⟩ := hrest.exists_of_mem_head? d hd
  rw [← goesOn_congr hlower]
  exact h c hc

theorem RecasedFrom.eq_of_inside (h : RecasedFrom true cs ds) (hcs : '"' ∉ cs) : cs = ds := by
  rw [← List.append_nil cs] at h
  obtain ⟨text', rest', rfl, -, hsame, hrest⟩ := h.split hcs
  cases hrest
  rw [List.append_nil, hsame rfl]

theorem RecasedFrom.cons_plain {c : Char} (h : RecasedFrom false (c :: cs) ds)
    (hc : c.isAlpha = false ∧ c ≠ '"') : ∃ ds', ds = c :: ds' ∧ RecasedFrom false cs ds' := by
  cases h with
  | quote _ => exact absurd rfl hc.2
  | outside _ hcd h =>
      obtain rfl := eq_of_toLower_eq hcd hc.1
      exact ⟨_, rfl, h⟩

theorem RecasedFrom.split_plain (h : RecasedFrom false (text ++ rest) ds)
    (htext : ∀ c ∈ text, c.isAlpha = false ∧ c ≠ '"') :
    ∃ rest', ds = text ++ rest' ∧ RecasedFrom false rest rest' := by
  induction text generalizing ds with
  | nil => exact ⟨ds, rfl, h⟩
  | cons c text ih =>
      obtain ⟨ds', rfl, h'⟩ := h.cons_plain (htext c List.mem_cons_self)
      obtain ⟨rest', rfl, hrest⟩ := ih h' fun d hd => htext d (List.mem_cons_of_mem c hd)
      exact ⟨rest', rfl, hrest⟩

theorem RecasedFrom.split_string {body : List Char}
    (h : RecasedFrom false ('"' :: (body ++ '"' :: rest)) ds) (hbody : '"' ∉ body) :
    ∃ rest', ds = '"' :: (body ++ '"' :: rest') ∧ RecasedFrom false rest rest' := by
  cases h with
  | outside hne _ _ => exact absurd rfl hne
  | quote h =>
      obtain ⟨body', tail, rfl, -, hsame, htail⟩ := h.split hbody
      obtain rfl := hsame rfl
      cases htail with
      | inside hne _ => exact absurd rfl hne
      | quote hrest => exact ⟨_, rfl, hrest⟩

end

/-! ## Pieces -/

/-- The lexemes stand for the same token of a kind: words of truth of the same letters, or one and
the same lexeme. -/
def Kind.SameLexeme : Kind → String → String → Prop
  | .bool _, lexeme, lexeme' => Reserved.lower lexeme.toList = Reserved.lower lexeme'.toList
  | _, lexeme, lexeme' => lexeme = lexeme'

theorem Kind.sameLexeme_self (kind : Kind) (lexeme : String) : kind.SameLexeme lexeme lexeme := by
  cases kind <;> exact rfl

/-- The items are the same, up to the case of words of truth. -/
inductive Item.Recased : Item → Item → Prop
  | token {kind : Kind} {lexeme lexeme' : String} : kind.SameLexeme lexeme lexeme' →
      Recased (.token kind lexeme) (.token kind lexeme')
  | stray {c : Char} : Recased (.stray c) (.stray c)
  | blank : Recased .blank .blank

theorem Item.recased_self (item : Item) : item.Recased item := by
  cases item with
  | token kind lexeme => exact .token (kind.sameLexeme_self lexeme)
  | stray c => exact .stray
  | blank => exact .blank

structure Piece.Recased (x y : Piece) : Prop where
  text : Reserved.lower x.text = Reserved.lower y.text
  item : x.item.Recased y.item

section
variable {kind : Kind} {lexeme : String} {item : Item} {text rest ds : List Char}

theorem not_isAlpha_of_isNumeral {c : Char} (h : isNumeral c = true) :
    c.isAlpha = false ∧ c ≠ '"' := by
  constructor
  · refine Bool.eq_false_iff.mpr fun hc => ?_
    rw [isNumeral_of_isAlpha hc] at h
    exact Bool.false_ne_true h
  · rintro rfl
    exact nomatch h

theorem Kind.spelling?_not_isAlpha (h : kind.spelling? = some lexeme) :
    ∀ c ∈ lexeme.toList, c.isAlpha = false ∧ c ≠ '"' := by
  cases kind <;> simp only [spelling?, Option.some.injEq, reduceCtorEq] at h <;> subst h <;> simp

/-- Besides strings, words of truth and keywords, tokens are written without letters and quotes. -/
theorem Kind.Writes.cases (hwrites : kind.Writes lexeme text) (hadmits : kind.Admits lexeme) :
    kind = .string ∨ (∃ b, kind = .bool b) ∨ kind = .identifier ∨
      ∀ c ∈ text, c.isAlpha = false ∧ c ≠ '"' := by
  cases kind with
  | string => exact Or.inl rfl
  | bool b => exact Or.inr (Or.inl ⟨b, rfl⟩)
  | identifier => exact Or.inr (Or.inr (Or.inl rfl))
  | integer =>
      obtain rfl : text = lexeme.toList := hwrites
      refine Or.inr (Or.inr (Or.inr fun c hc => ?_))
      exact not_isAlpha_of_isNumeral (Bool.or_eq_true_iff.mpr (Or.inl (hadmits.2 c hc)))
  | float =>
      obtain rfl : text = lexeme.toList := hwrites
      refine Or.inr (Or.inr (Or.inr fun c hc => ?_))
      exact not_isAlpha_of_isNumeral (hadmits.2.1 c hc)
  | _ =>
      obtain rfl : text = lexeme.toList := hwrites
      exact Or.inr (Or.inr (Or.inr (spelling?_not_isAlpha hadmits)))

theorem RecasedFrom.split_word {small : List Char} (h : RecasedFrom false (text ++ rest) ds)
    (hsmall : Reserved.lower text = small) (halpha : small.all Char.isAlpha = true) :
    ∃ text' rest', ds = text' ++ rest' ∧ Reserved.lower text = Reserved.lower text' ∧
      RecasedFrom false rest rest' := by
  subst hsmall
  have hquote : '"' ∉ text := fun hmem => nomatch Reserved.isAlpha_of_lower halpha _ hmem
  obtain ⟨text', rest', hds, hlower, -, hrest⟩ := h.split hquote
  exact ⟨text', rest', hds, hlower, hrest⟩

/-- A piece that fits in one text fits in the other, in its own letters. -/
theorem Item.Fits.recased (h : item.Fits text rest) (hds : RecasedFrom false (text ++ rest) ds) :
    ∃ piece rest', ds = piece.text ++ rest' ∧ piece.item.Fits piece.text rest' ∧
      (⟨text, item⟩ : Piece).Recased piece ∧ RecasedFrom false rest rest' := by
  cases h with
  | @blank c _ hblank =>
      have hplain : c.isAlpha = false ∧ c ≠ '"' := by
        simp only [isBlank, Bool.or_eq_true, beq_iff_eq] at hblank
        rcases hblank with ((rfl | rfl) | rfl) | rfl <;> simp
      obtain ⟨rest', rfl, hrest⟩ := RecasedFrom.cons_plain hds hplain
      exact ⟨⟨[c], .blank⟩, rest', rfl, .blank hblank, ⟨rfl, .blank⟩, hrest⟩
  | @stray c _ hstray hnext =>
      have hplain : c.isAlpha = false ∧ c ≠ '"' := by
        simp only [isStray, Bool.or_eq_true, beq_iff_eq] at hstray
        rcases hstray with rfl | rfl <;> simp
      obtain ⟨rest', rfl, hrest⟩ := RecasedFrom.cons_plain hds hplain
      refine ⟨⟨[c], .stray c⟩, rest', rfl, .stray hstray fun hsame => ?_, ⟨rfl, .stray⟩, hrest⟩
      obtain ⟨d, hd, hlower⟩ := hrest.exists_of_mem_head? c hsame
      obtain rfl := eq_of_toLower_eq hlower.symm hplain.1
      exact hnext hd
  | @token kind lexeme _ _ hadmits hwrites hend =>
      -- a string stands against itself, a word of truth is the word that the other text has, a
      -- keyword is the same in capitals, and all the rest has no letters
      rcases hwrites.cases hadmits with rfl | ⟨b, rfl⟩ | rfl | hplain
      · obtain rfl : text = '"' :: (lexeme.toList ++ ['"']) := hwrites
        rw [List.cons_append, List.append_assoc] at hds
        obtain ⟨rest', rfl, hrest⟩ := hds.split_string hadmits
        refine ⟨⟨'"' :: (lexeme.toList ++ ['"']), .token .string lexeme⟩, rest', ?_,
          .token hadmits rfl (fun _ _ => rfl), ⟨rfl, Item.recased_self _⟩, hrest⟩
        rw [List.cons_append, List.append_assoc]
        rfl
      · obtain rfl : text = lexeme.toList := hwrites
        obtain ⟨text', rest', rfl, hlower, hrest⟩ := hds.split_word hadmits (by cases b <;> rfl)
        have hlower' : Reserved.lower lexeme.toList =
            Reserved.lower (String.ofList text').toList := by rw [hlower, String.toList_ofList]
        exact ⟨⟨text', .token (.bool b) (String.ofList text')⟩, rest', rfl,
          .token (hlower'.symm.trans hadmits) String.toList_ofList.symm (hend.recased hrest),
          ⟨hlower, .token hlower'⟩, hrest⟩
      · obtain ⟨key, hkey, hsmall⟩ := Reserved.exists_keyword hadmits hwrites
        obtain ⟨text', rest', rfl, hlower, hrest⟩ :=
          hds.split_word hsmall (Reserved.keyword_letters key hkey).2.2
        have hupper : Reserved.upper text' = lexeme.toList := by
          rw [← Reserved.upper_lower, ← hlower, Reserved.upper_lower]
          exact hwrites
        exact ⟨⟨text', .token .identifier lexeme⟩, rest', rfl,
          .token hadmits hupper (hend.recased hrest), ⟨hlower, Item.recased_self _⟩, hrest⟩
      · obtain ⟨rest', rfl, hrest⟩ := hds.split_plain hplain
        exact ⟨⟨text, .token kind lexeme⟩, rest', rfl,
          .token hadmits hwrites (hend.recased hrest), ⟨rfl, Item.recased_self _⟩, hrest⟩

/-! ## Faults -/

inductive Fault.Recased : Fault → Fault → Prop
  | same (fault : Fault) : Recased fault fault
  | word {word word' : String} :
      Reserved.lower word.toList = Reserved.lower word'.toList →
      Recased (.unknownWord word) (.unknownWord word')

theorem isWordStart_congr {c d : Char} (h : c.toLower = d.toLower) :
    isWordStart c = isWordStart d := by
  rcases eq_or_isAlpha_of_toLower_eq h with rfl | ⟨hc, hd⟩
  · rfl
  · simp [isWordStart, hc, hd]

theorem RecasedFrom.lower_takeWhile {cs : List Char} (h : RecasedFrom false cs ds) :
    Reserved.lower (cs.takeWhile isWordChar) = Reserved.lower (ds.takeWhile isWordChar) := by
  generalize hside : false = side at h
  induction h with
  | nil | quote _ _ => rfl
  | inside _ _ _ => exact absurd hside Bool.false_ne_true
  | @outside c d cs ds _ hcd _ ih =>
      have hgoes : isWordChar c = isWordChar d := Kind.goesOn_congr hcd .identifier
      cases hd : isWordChar d with
      | true =>
          rw [List.takeWhile_cons_of_pos (hgoes.trans hd), List.takeWhile_cons_of_pos hd]
          exact congrArg₂ List.cons hcd (ih rfl)
      | false =>
          rw [List.takeWhile_cons_of_neg (by simp [hgoes, hd]),
            List.takeWhile_cons_of_neg (by simp [hd])]

theorem Fault.Blames.recased {fault : Fault} (h : fault.Blames rest)
    (hds : RecasedFrom false rest ds) : ∃ fault', fault'.Blames ds ∧ fault.Recased fault' := by
  cases h with
  | unterminatedString hbody =>
      cases hds with
      | outside hne _ _ => exact absurd rfl hne
      | quote hds =>
          obtain rfl := hds.eq_of_inside hbody
          exact ⟨_, .unterminatedString hbody, .same _⟩
  | @unknownCharacter c cs hc hdigit hword =>
      have hquote : c ≠ '"' := by
        rintro rfl
        exact hc (by simp [punctuation])
      obtain ⟨rest', rfl, -⟩ := hds.cons_plain ⟨(Bool.or_eq_false_iff.mp hword).1, hquote⟩
      exact ⟨_, .unknownCharacter hc hdigit hword, .same _⟩
  | @unknownWord c cs hc hlookup =>
      cases hds with
      | quote _ => exact absurd hc Bool.false_ne_true
      | @outside _ d _ ds _ hcd htail =>
          have hlower : Reserved.lower (c :: cs.takeWhile isWordChar) =
              Reserved.lower (d :: ds.takeWhile isWordChar) :=
            congrArg₂ List.cons hcd htail.lower_takeWhile
          have hlookup' : Reserved.lookup? (d :: ds.takeWhile isWordChar) = none := by
            rw [Reserved.lookup?_eq_none_iff, ← hlower]
            exact Reserved.lookup?_eq_none_iff.mp hlookup
          refine ⟨_, .unknownWord (isWordStart_congr hcd ▸ hc) hlookup', .word ?_⟩
          rw [String.toList_ofList, String.toList_ofList, hlower]

/-! ## Cuts -/

/-- What is cut off one text is cut off the other, and what is left differs in case only. -/
theorem Cuts.recased {cs : List Char} {pieces : List Piece} (h : Cuts cs pieces rest)
    (hds : RecasedFrom false cs ds) :
    ∃ pieces' rest', Cuts ds pieces' rest' ∧ List.Forall₂ Piece.Recased pieces pieces' ∧
      RecasedFrom false rest rest' := by
  induction h generalizing ds with
  | stop rest => exact ⟨[], ds, .stop ds, .nil, hds⟩
  | piece hfits _ ih =>
      obtain ⟨piece, tail, rfl, hfits', hpiece, htail⟩ := hfits.recased hds
      obtain ⟨pieces', rest', hcuts', hpieces, hrest⟩ := ih htail
      exact ⟨piece :: pieces', rest', .piece hfits' hcuts', .cons hpiece hpieces, hrest⟩

end

/-! ## Scans -/

/-- The tokens have one kind and one place, and the same lexeme up to the case of a word of
truth. -/
structure Recased (t u : Token) : Prop where
  kind_eq : t.kind = u.kind
  position_eq : t.position = u.position
  lexeme : t.kind.SameLexeme t.lexeme u.lexeme

end Token

/-- The errors are the same, up to the case of an unknown word. -/
inductive ScanError.Recased : ScanError → ScanError → Prop
  | same (e : ScanError) : Recased e e
  | word {word word' : String} {line : UInt32} :
      Token.Reserved.lower word.toList = Token.Reserved.lower word'.toList →
      Recased (.unknownIdentifier word line) (.unknownIdentifier word' line)

namespace Token

theorem Fault.Recased.locate {fault fault' : Fault} (h : fault.Recased fault') (p : Position) :
    (fault.locate p).Recased (fault'.locate p) := by
  cases h with
  | same => exact .same _
  | word hlower => exact .word hlower

theorem placeAfter_recased {pieces pieces' : List Piece}
    (h : List.Forall₂ Piece.Recased pieces pieces') (p : Position) :
    placeAfter p pieces = placeAfter p pieces' := by
  induction h generalizing p with
  | nil => rfl
  | @cons x y pieces pieces' hxy _ ih =>
      show placeAfter (p.after x.text) pieces = placeAfter (p.after y.text) pieces'
      rw [after_congr hxy.text]
      exact ih _

theorem tokensFrom_recased {pieces pieces' : List Piece}
    (h : List.Forall₂ Piece.Recased pieces pieces') (p : Position) :
    List.Forall₂ Recased (tokensFrom p pieces) (tokensFrom p pieces') := by
  induction h generalizing p with
  | nil => exact .cons ⟨rfl, rfl, rfl⟩ .nil
  | @cons x y pieces pieces' hxy _ ih =>
      obtain ⟨text, item⟩ := x
      obtain ⟨text', item'⟩ := y
      obtain ⟨htext, hitem⟩ := hxy
      have hafter : p.after text = p.after text' := after_congr htext p
      have hrest : List.Forall₂ Recased (tokensFrom (p.after text) pieces)
          (tokensFrom (p.after text') pieces') := hafter ▸ ih _
      cases hitem with
      | token hlexeme => exact .cons ⟨rfl, rfl, hlexeme⟩ hrest
      | stray => exact hrest
      | blank => exact hrest

end Token

end LineCalc
