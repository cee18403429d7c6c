/-
# `LineCalc.Proofs.Token.Seam` — cutting up to a seam

A piece depends on what follows it only through the next character, and no piece goes on
with a blank.  So the pieces in front of a text may as well stand in front of another one,
if that is empty, begins alike or begins with a blank (`Seam`): what was cut stays cut
(`Cuts.seam`).  Together with what is left over the pieces then determine the whole cut
(`cut_of_cuts`), and two texts that meet at a seam are cut one after the other.

The first use is the text in front of a fault.  It scans by itself, so an error is the
earliest there is, and what is wrong stands right after it (`scan_error_earliest`).
-/
import LineCalc.Proofs.Token.Cut
import LineCalc.Proofs.Token.Spacing

namespace LineCalc.Token

/-! ## Seams -/

/-- What ends before the text `rest` ends before `rest'` as well: there nothing follows, or a blank,
or the same character. -/
def Seam (rest rest' : List Char) : Prop :=
  ∀ d ∈ rest'.head?, rest.head? = some d ∨ isBlank d = true

section
variable {item : Item} {text cs mid rest rest' : List Char} {pieces pieces' : List Piece}

theorem Seam.nil (rest : List Char) : Seam rest [] := fun _ hd => nomatch hd

theorem Seam.cons (c : Char) (cs cs' : List Char) : Seam (c :: cs) (c :: cs') :=
  fun _ hd => Or.inl hd

theorem Seam.blank {c : Char} (hc : isBlank c = true) (rest cs : List Char) :
    Seam rest (c :: cs) := by
  intro d hd
  obtain rfl := Option.some.inj hd
  exact Or.inr hc

theorem Seam.append (h : Seam rest rest') (front : List Char) :
    Seam (front ++ rest) (front ++ rest') := by
  cases front with
  | nil => exact h
  | cons c front => exact .cons c _ _

theorem not_isBlank_of_isStray {c : Char} (h : isStray c = true) : isBlank c = false := by
  simp only [isStray, Bool.or_eq_true, beq_iff_eq] at h
  rcases h with rfl | rfl <;> rfl

theorem Item.Fits.seam (h : item.Fits text rest) (hseam : Seam rest rest') :
    item.Fits text rest' := by
  cases h with
  | blank hblank => exact .blank hblank
  | @stray c _ hstray hnext =>
      refine .stray hstray fun hsame => ?_
      rcases hseam c hsame with hhead | hblank
      · exact hnext hhead
      · rw [not_isBlank_of_isStray hstray] at hblank
        exact Bool.false_ne_true hblank
  | token hadmits hwrites hend =>
      refine .token hadmits hwrites fun d hd => ?_
      rcases hseam d hd with hhead | hblank
      · exact hend d hhead
      · exact Kind.goesOn_of_isBlank hblank _

/-! ## Cuts that meet -/

/-- What is cut off in front of a seam is cut off in front of what is sewn on instead. -/
theorem Cuts.seam (h : Cuts cs pieces rest) (hseam : Seam rest rest') :
    Cuts (pieces.flatMap Piece.text ++ rest') pieces rest' := by
  induction h with
  | stop rest => exact .stop rest'
  | piece hfits hcuts ih =>
      rw [List.flatMap_cons, List.append_assoc]
      refine .piece (hfits.seam ?_) (ih hseam)
      rw [hcuts.eq_append]
      exact hseam.append _

theorem Cuts.append (h : Cuts cs pieces mid) (h' : Cuts mid pieces' rest) :
    Cuts cs (pieces ++ pieces') rest := by
  induction h with
  | stop mid => exact h'
  | piece hfits _ ih => exact .piece hfits (ih h')

theorem cut_of_blames {fault : Fault} (h : fault.Blames rest) : cut rest = ⟨[], some fault⟩ := by
  cases h with
  | @unterminatedString body hbody =>
      have hwhole : body.takeWhile (· != '"') = body := by
        refine List.takeWhile_eq_self_iff.mpr fun c hc => ?_
        simp only [bne_iff_ne]
        rintro rfl
        exact hbody hc
      rw [cut, first_quote, firstString, hwhole]
      simp
  | @unknownWord c cs hc hlookup => simp only [cut, first_wordStart hc, firstWord, hlookup]
  | @unknownCharacter c cs hc hdigit hword =>
      simp only [cut, first_of_not_punctuation hc, hdigit, hword]
      rfl

/-- There is one way to cut a text: into pieces that fit, up to nothing or up to a fault. -/
theorem cut_of_cuts {fault : Option Fault} (h : Cuts cs pieces rest) (hleaves : Leaves fault rest) :
    cut cs = ⟨pieces, fault⟩ := by
  induction h with
  | stop rest =>
      cases hleaves with
      | nothing => rw [cut]
      | blamed hblames => exact cut_of_blames hblames
  | piece hfits _ ih => rw [cut_of_fits hfits, ih hleaves]

end

/-! ## Scans -/

/-- The tokens of pieces that begin at the place `p`, and the marker at their end. -/
def tokensFrom (p : Position) (pieces : List Piece) : List Token :=
  (events p pieces).filterMap Event.token? ++ [endAt (placeAfter p pieces)]

theorem events_append (p : Position) (pieces pieces' : List Piece) :
    events p (pieces ++ pieces') = events p pieces ++ events (placeAfter p pieces) pieces' := by
  induction pieces generalizing p with
  | nil => rfl
  | cons piece pieces ih =>
      obtain ⟨text, item⟩ := piece
      cases item with
      | token kind lexeme => exact congrArg (List.cons _) (ih _)
      | stray c => exact congrArg (List.cons _) (ih _)
      | blank => exact ih _

theorem placeAfter_append (p : Position) (pieces pieces' : List Piece) :
    placeAfter p (pieces ++ pieces') = placeAfter (placeAfter p pieces) pieces' :=
  List.foldl_append

theorem tokensFrom_append (p : Position) (pieces pieces' : List Piece) :
    tokensFrom p (pieces ++ pieces') =
      (events p pieces).filterMap Event.token? ++ tokensFrom (placeAfter p pieces) pieces' := by
  rw [tokensFrom, events_append, placeAfter_append, List.filterMap_append, List.append_assoc]
  rfl

section
variable {s : String}

/-- A text scans if it can be cut to its end, and the tokens are those of the pieces. -/
theorem scan_eq_ok_iff {ts : List Token} :
    scan s = .ok ts ↔ ∃ pieces, Cuts s.toList pieces [] ∧ ts = tokensFrom .start pieces := by
  constructor
  · intro h
    obtain ⟨rest, hcuts, hleaves⟩ := cuts_cut s.toList
    have hfault := fault_eq_none_of_scan h
    rw [hfault] at hleaves
    obtain ⟨⟩ := hleaves
    rw [scan_eq hfault] at h
    exact ⟨_, hcuts, (Except.ok.inj h).symm⟩
  · rintro ⟨pieces, hcuts, rfl⟩
    have hcut := cut_of_cuts hcuts .nothing
    rw [scan_eq (by rw [hcut]), hcut]
    rfl

/-- A text does not scan if it can be cut up to what a fault blames, and the fault is the error. -/
theorem scan_eq_error_iff {e : ScanError} :
    scan s = .error e ↔ ∃ pieces rest, ∃ fault : Fault, Cuts s.toList pieces rest ∧
      fault.Blames rest ∧ e = fault.locate (placeAfter .start pieces) := by
  constructor
  · intro h
    obtain ⟨rest, hcuts, hleaves⟩ := cuts_cut s.toList
    cases hfault : (cut s.toList).fault with
    | none => rw [scan_eq hfault] at h; exact nomatch h
    | some fault =>
        rw [hfault] at hleaves
        rw [scan_eq_error hfault] at h
        cases hleaves with
        | blamed hblames => exact ⟨_, rest, fault, hcuts, hblames, (Except.error.inj h).symm⟩
  · rintro ⟨pieces, rest, fault, hcuts, hblames, rfl⟩
    have hcut := cut_of_cuts hcuts (.blamed hblames)
    rw [scan_eq_error (by rw [hcut]), hcut]

end

/-! ## The earliest error -/

theorem eq_append_of_take_eq {front cs : List Char} {c : Char}
    (h : cs.take (front.length + 1) = front ++ [c]) : ∃ more, cs = front ++ c :: more := by
  refine ⟨cs.drop (front.length + 1), ?_⟩
  calc cs = cs.take (front.length + 1) ++ cs.drop (front.length + 1) :=
        (List.take_append_drop _ _).symm
    _ = front ++ c :: cs.drop (front.length + 1) := by rw [h, List.append_assoc]; rfl

theorem Reserved.lookup?_eq_none_iff {word : List Char} :
    Reserved.lookup? word = none ↔
      String.ofList (Reserved.lower word) ∉ "true" :: "false" :: Reserved.keywords := by
  simp only [Reserved.lookup?, List.mem_cons, not_or]
  split
  next htrue => simp [htrue]
  next htrue =>
    split
    next hfalse => simp [hfalse]
    next hfalse => simp [htrue, hfalse]

/-- In front of an error the text scans.  The error quotes what stands there: a character that
begins no token, whatever comes after it; a whole word, and one that is not reserved; or all the
rest of the text, behind a quote that is never closed. -/
theorem scan_error_earliest (s : String) (e : ScanError) (h : scan s = .error e) :
    ∃ p, (∃ ts, scan (String.ofList (s.toList.take p)) = .ok ts) ∧
      match e with
      | .unknownCharacter c _ =>
          s.toList[p]? = some c ∧ c ∉ punctuation ∧ c.isAlphanum = false ∧ c ≠ '_' ∧
            ∀ s' : String, s'.toList.take (p + 1) = s.toList.take (p + 1) → scan s' = .error e
      | .unknownIdentifier word _ =>
          word.toList = (s.toList.drop p).takeWhile isWordChar ∧
            (∃ c cs, word.toList = c :: cs ∧ isWordStart c = true) ∧
            String.ofList (Reserved.lower word.toList) ∉ "true" :: "false" :: Reserved.keywords
      | .unterminatedString text _ =>
          text.toList = s.toList.drop p ∧ ∃ body, text.toList = '"' :: body ∧ '"' ∉ body := by
  obtain ⟨pieces, rest, fault, hcuts, hblames, rfl⟩ := scan_eq_error_iff.mp h
  have hs := hcuts.eq_append
  have hsewn : ∀ rest', Seam rest rest' → Cuts (pieces.flatMap Piece.text ++ rest') pieces rest' :=
    fun _ hseam => hcuts.seam hseam
  generalize pieces.flatMap Piece.text = front at hs hsewn
  have hdrop : s.toList.drop front.length = rest := by rw [hs, List.drop_left]
  -- whatever is blamed stands behind the pieces
  refine ⟨front.length, ⟨tokensFrom .start pieces, ?_⟩, ?_⟩
  · rw [hs, List.take_left]
    refine scan_eq_ok_iff.mpr ⟨pieces, ?_, rfl⟩
    rw [String.toList_ofList, ← List.append_nil front]
    exact hsewn [] (.nil rest)
  · cases hblames with
    | unterminatedString hbody =>
        exact ⟨by rw [hdrop, String.toList_ofList], _, String.toList_ofList, hbody⟩
    | @unknownWord c cs hc hlookup =>
        have hchar := isWordChar_of_isWordStart hc
        refine ⟨?_, ⟨c, _, String.toList_ofList, hc⟩, ?_⟩
        · rw [hdrop, String.toList_ofList, List.takeWhile_cons_of_pos hchar]
        · rw [String.toList_ofList]
          exact Reserved.lookup?_eq_none_iff.mp hlookup
    | @unknownCharacter c cs hc hdigit hword =>
        obtain ⟨halpha, hscore⟩ := Bool.or_eq_false_iff.mp hword
        refine ⟨?_, hc, ?_, beq_eq_false_iff_ne.mp hscore, fun s' hs' => ?_⟩
        · rw [hs, List.getElem?_append_right (Nat.le_refl _), Nat.sub_self]
          rfl
        · rw [Char.isAlphanum, halpha, hdigit]
          rfl
        · rw [hs, List.take_length_add_append] at hs'
          obtain ⟨cs', hcs'⟩ := eq_append_of_take_eq hs'
          have hcuts' := hsewn (c :: cs') (.cons c cs cs')
          rw [← hcs'] at hcuts'
          exact scan_eq_error_iff.mpr
            ⟨pieces, _, _, hcuts', .unknownCharacter hc hdigit hword, rfl⟩

/-- The `#` is the error of `1 &#`, whatever comes after it; the stray character in front of it is
one also where the text ends. -/
theorem scan_error_earliest_of_stray :
    let s := "1 &#"
    scan s = .error (.unknownCharacter '#' ⟨1, 4⟩) ∧
      ∃ p, (∃ ts, scan (String.ofList (s.toList.take p)) = .ok ts) ∧ s.toList[p]? = some '#' ∧
        ∀ s' : String, s'.toList.take (p + 1) = s.toList.take (p + 1) →
          scan s' = .error (.unknownCharacter '#' ⟨1, 4⟩) := by
  intro s
  have hscan : scan s = .error (.unknownCharacter '#' ⟨1, 4⟩) := by decide +kernel
  obtain ⟨p, hfront, hp, -, -, -, hsame⟩ := scan_error_earliest s _ hscan
  exact ⟨hscan, p, hfront, hp, hsame⟩

end LineCalc.Token
