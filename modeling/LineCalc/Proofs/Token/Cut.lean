/-
# `LineCalc.Proofs.Token.Cut` — how a cut goes and how it ends

A cut goes from the left, and each piece fits before everything that follows it (`Cuts`).
In the end nothing is left over, or a text with which no piece begins.  The fault then says
what is wrong with that text, and it is one of three things (`Fault.Blames`): a quote that
is not closed, a word that is not reserved, or a character that is neither punctuation nor
the beginning of a number or a word.
-/
import LineCalc.Proofs.Token.Scan

namespace LineCalc.Token

/-! ## Faults -/

/-- `fault.Blames rest`: no piece begins the text `rest`, for the reason that the fault gives. -/
inductive Fault.Blames : Fault → List Char → Prop
  | unterminatedString {body : List Char} :
      '"' ∉ body → Blames (.unterminatedString (String.ofList ('"' :: body))) ('"' :: body)
  | unknownWord {c : Char} {cs : List Char} :
      isWordStart c = true → Reserved.lookup? (c :: cs.takeWhile isWordChar) = none →
      Blames (.unknownWord (String.ofList (c :: cs.takeWhile isWordChar))) (c :: cs)
  | unknownCharacter {c : Char} {cs : List Char} :
      c ∉ punctuation → c.isDigit = false → isWordStart c = false →
      Blames (.unknownCharacter c) (c :: cs)

section
variable {c : Char} {cs : List Char} {fault : Fault}

theorem not_mem_punctuation (hblank : isBlank c = false) (hsingle : single? c = none)
    (hstray : isStray c = false) (hquote : c ≠ '"') : c ∉ punctuation := by
  intro hmem
  have hread : ∀ d ∈ punctuation,
      isBlank d = true ∨ (single? d).isSome = true ∨ isStray d = true ∨ d = '"' := by
    simp [punctuation, isBlank, single?, isStray]
  rcases hread c hmem with h | h | h | h
  · rw [hblank] at h
    exact Bool.false_ne_true h
  · rw [hsingle] at h
    exact Bool.false_ne_true h
  · rw [hstray] at h
    exact Bool.false_ne_true h
  · exact hquote h

theorem firstString_blames (h : firstString cs = .error fault) : fault.Blames ('"' :: cs) := by
  simp only [firstString] at h
  split at h
  next => cases h
  next hlength =>
    obtain rfl := Except.error.inj h
    have hwhole : cs.takeWhile (· != '"') = cs :=
      (List.takeWhile_prefix _).eq_of_length_le (Nat.le_of_not_lt hlength)
    refine .unterminatedString fun hquote => ?_
    have hne := List.takeWhile_eq_self_iff.mp hwhole _ hquote
    exact absurd hne (by decide)

theorem firstWord_blames (hc : isWordStart c = true) (h : firstWord c cs = .error fault) :
    fault.Blames (c :: cs) := by
  simp only [firstWord] at h
  split at h
  next => cases h
  next hlookup =>
    obtain rfl := Except.error.inj h
    exact .unknownWord hc hlookup

theorem firstOther_blames (hblank : isBlank c = false) (h : firstOther c cs = .error fault) :
    fault.Blames (c :: cs) := by
  unfold firstOther at h
  split at h
  next => cases h
  next hsingle =>
    split at h
    next => cases h
    next hstray =>
      split at h
      next hquote =>
        subst hquote
        exact firstString_blames h
      next hquote =>
        split at h
        next => cases h
        next hdigit =>
          split at h
          next hword => exact firstWord_blames hword h
          next hword =>
            obtain rfl := Except.error.inj h
            have hpunctuation := not_mem_punctuation hblank hsingle
              (Bool.eq_false_iff.mpr hstray) hquote
            exact .unknownCharacter hpunctuation (Bool.eq_false_iff.mpr hdigit)
              (Bool.eq_false_iff.mpr hword)

theorem first_blames (h : first c cs = .error fault) : fault.Blames (c :: cs) := by
  unfold first at h
  split at h
  next => cases h
  next hblank =>
    split at h
    next => cases h
    next => exact firstOther_blames (Bool.eq_false_iff.mpr hblank) h

end

/-! ## Pieces -/

/-- `Cuts cs pieces rest`: the text `cs` begins with the pieces, each of which fits where it
stands, and `rest` is left over. -/
inductive Cuts : List Char → List Piece → List Char → Prop
  | stop (rest : List Char) : Cuts rest [] rest
  | piece {item : Item} {text cs : List Char} {pieces : List Piece} {rest : List Char} :
      item.Fits text cs → Cuts cs pieces rest → Cuts (text ++ cs) (⟨text, item⟩ :: pieces) rest

/-- What may be left over where a cut ends: nothing, or what its fault blames. -/
inductive Leaves : Option Fault → List Char → Prop
  | nothing : Leaves none []
  | blamed {fault : Fault} {rest : List Char} : fault.Blames rest → Leaves (some fault) rest

/-- A text is cut into pieces that fit, and what is left over begins with none. -/
theorem cuts_cut (cs : List Char) :
    ∃ rest, Cuts cs (cut cs).pieces rest ∧ Leaves (cut cs).fault rest := by
  fun_induction cut cs with
  | case1 => exact ⟨[], .stop [], .nothing⟩
  | case2 c cs fault hfirst => exact ⟨c :: cs, .stop _, .blamed (first_blames hfirst)⟩
  | case3 c cs item n hfirst cut ih =>
      obtain ⟨rest, hcuts, hleaves⟩ := ih
      have hpiece := Cuts.piece (first_fits hfirst) hcuts
      rw [List.cons_append, List.take_append_drop] at hpiece
      exact ⟨rest, hpiece, hleaves⟩

theorem Cuts.eq_append {cs rest : List Char} {pieces : List Piece} (h : Cuts cs pieces rest) :
    cs = pieces.flatMap Piece.text ++ rest := by
  induction h with
  | stop rest => rfl
  | piece hfits _ ih => rw [List.flatMap_cons, List.append_assoc, ← ih]

theorem Cuts.fits_of_mem {cs rest : List Char} {pieces : List Piece} (h : Cuts cs pieces rest)
    {piece : Piece} (hpiece : piece ∈ pieces) : ∃ after, piece.item.Fits piece.text after := by
  induction h with
  | stop rest => exact nomatch hpiece
  | piece hfits _ ih =>
      rcases List.mem_cons.mp hpiece with rfl | hpiece
      · exact ⟨_, hfits⟩
      · exact ih hpiece

end LineCalc.Token
