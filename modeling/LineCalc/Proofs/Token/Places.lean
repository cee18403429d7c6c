/-
# `LineCalc.Proofs.Token.Places` — places are exact

A place is kept as two running counters.  What it stands for is an offset of the text: the
line counts the line feeds in front of the offset, and the column the characters since the
last of them, as far as a column can be counted (`Position.Names`).

A scan goes through its text and meets tokens and stray characters, each at an offset of its
own (`Meets`).  The places it gives them are those of their offsets, and so is the place
where it ends or stops: `scan_places`.
-/
import LineCalc.Proofs.Token.Cut
import LineCalc.Line

namespace LineCalc

/-! ## Lines and columns -/

namespace Position

/-- The line on which a text ends, counted from one. -/
def lineOf (front : List Char) : Nat := 1 + front.count '\n'

/-- The column after a text, counted from one since its last line feed; columns from the last one
on are all that one. -/
def columnOf (front : List Char) : Nat :=
  min (1 + (front.reverse.takeWhile (· != '\n')).length) (2 ^ 32 - 1)

/-- `q.Names cs p`: the place `q` is that of the offset `p` in the text `cs`. -/
structure Names (q : Position) (cs : List Char) (p : Nat) : Prop where
  line_eq : q.line.toNat = lineOf (cs.take p)
  column_eq : q.column.toNat = columnOf (cs.take p)

section
variable {cs : List Char}

theorem after_concat (p : Position) (cs : List Char) (c : Char) :
    p.after (cs ++ [c]) = (p.after cs).next c := by
  rw [after_append]
  rfl

theorem next_feed (p : Position) : p.next '\n' = ⟨p.line + 1, 1⟩ := rfl

theorem line_next_of_ne {c : Char} (h : c ≠ '\n') (p : Position) : (p.next c).line = p.line := by
  rw [next, if_neg h]

theorem column_next_of_ne {c : Char} (h : c ≠ '\n') (p : Position) :
    (p.next c).column.toNat = min (p.column.toNat + 1) (2 ^ 32 - 1) := by
  rw [next, if_neg h]
  show (if p.column = lastColumn then lastColumn else p.column + 1).toNat = _
  have hlast : lastColumn.toNat = 2 ^ 32 - 1 := rfl
  by_cases hp : p.column = lastColumn
  · rw [if_pos hp, hp, hlast]
    rfl
  · have hne : p.column.toNat ≠ lastColumn.toNat := fun h => hp (UInt32.toNat_inj.mp h)
    have hlt : p.column.toNat < 2 ^ 32 := p.column.toNat_lt
    have hone : (1 : UInt32).toNat = 1 := rfl
    rw [if_neg hp, UInt32.toNat_add, hone, Nat.mod_eq_of_lt (by omega), Nat.min_eq_left (by omega)]

theorem line_after_of_lt {p : Position} (h : p.line.toNat + cs.count '\n' < 2 ^ 32) :
    (p.after cs).line.toNat = p.line.toNat + cs.count '\n' := by
  induction cs generalizing p with
  | nil => rfl
  | cons c cs ih =>
      rw [after_cons]
      by_cases hc : c = '\n'
      · subst hc
        rw [List.count_cons_self] at h ⊢
        have hone : (1 : UInt32).toNat = 1 := rfl
        have hline : (p.next '\n').line.toNat = p.line.toNat + 1 := by
          rw [next_feed, UInt32.toNat_add, hone, Nat.mod_eq_of_lt (by omega)]
        rw [ih (by omega), hline]
        omega
      · rw [List.count_cons_of_ne hc] at h ⊢
        have hline := line_next_of_ne hc p
        rw [← hline] at h ⊢
        exact ih h

/-- Short of 2 ^ 32 - 1 line feeds, the counter of lines does not overflow. -/
theorem line_after (h : cs.count '\n' < 2 ^ 32 - 1) :
    (start.after cs).line.toNat = lineOf cs := by
  have hone : start.line.toNat = 1 := rfl
  exact line_after_of_lt (by omega)

/-- The counter of columns stops at the last column and starts anew on every line. -/
theorem column_after (cs : List Char) : (start.after cs).column.toNat = columnOf cs := by
  induction cs using List.reverseRecOn with
  | nil => rfl
  | append_singleton cs c ih =>
      rw [after_concat, columnOf, List.reverse_append, List.reverse_singleton,
        List.singleton_append]
      by_cases hc : c = '\n'
      · subst hc
        rw [next_feed, List.takeWhile_cons_of_neg (by decide)]
        rfl
      · rw [column_next_of_ne hc, ih, List.takeWhile_cons_of_pos (by simpa using hc),
          List.length_cons, columnOf]
        omega

theorem names_after {front : List Char} (h : cs.count '\n' < 2 ^ 32 - 1) (hfront : front <+: cs) :
    (start.after front).Names cs front.length := by
  have htake : cs.take front.length = front := (List.prefix_iff_eq_take.mp hfront).symm
  have hcount : front.count '\n' ≤ cs.count '\n' := hfront.sublist.count_le '\n'
  refine ⟨?_, ?_⟩
  · rw [htake]
    exact line_after (Nat.lt_of_le_of_lt hcount h)
  · rw [htake]
    exact column_after front

end

end Position

namespace Token

/-! ## What a scan meets, and at which offset -/

def Event.place : Event → Position
  | token t => t.position
  | stray _ place => place

/-- `Meets n cs met rest`: going through the text `cs`, which begins at the offset `n`, one meets
tokens and stray characters, each at the offset where its text begins, until `rest` is left
over.  What is passed over apart from that is blank. -/
inductive Meets : Nat → List Char → List (Nat × Event) → List Char → Prop
  | stop (n : Nat) (rest : List Char) : Meets n rest [] rest
  | blank {n : Nat} {c : Char} {cs : List Char} {met : List (Nat × Event)} {rest : List Char} :
      isBlank c = true → Meets (n + 1) cs met rest → Meets n (c :: cs) met rest
  | stray {n : Nat} {c : Char} {cs : List Char} {met : List (Nat × Event)} {rest : List Char}
      {place : Position} :
      isStray c = true → cs.head? ≠ some c → Meets (n + 1) cs met rest →
      Meets n (c :: cs) ((n, .stray c place) :: met) rest
  | token {n : Nat} {t : Token} {text cs : List Char} {met : List (Nat × Event)}
      {rest : List Char} :
      t.kind.Admits t.lexeme → t.kind.Writes t.lexeme text → t.kind.EndsBefore cs →
      Meets (n + text.length) cs met rest → Meets n (text ++ cs) ((n, .token t) :: met) rest

theorem Kind.Admits.length_pos {kind : Kind} {lexeme : String} {text : List Char}
    (hadmits : kind.Admits lexeme) (hwrites : kind.Writes lexeme text) : 0 < text.length := by
  have hfits : (Item.token kind lexeme).Fits text [] := .token hadmits hwrites nofun
  obtain ⟨c, cs, rfl, -⟩ := first_of_fits hfits
  exact Nat.succ_pos _

section
variable {n : Nat} {cs rest : List Char} {met : List (Nat × Event)}

theorem Meets.length_le (h : Meets n cs met rest) : rest.length ≤ cs.length := by
  induction h with
  | stop n rest => exact Nat.le_refl _
  | blank _ _ ih | stray _ _ _ ih =>
      rw [List.length_cons]
      omega
  | token _ _ _ _ ih =>
      rw [List.length_append]
      omega

theorem Meets.bounds_of_mem (h : Meets n cs met rest) :
    ∀ x ∈ met, n ≤ x.1 ∧ x.1 + rest.length < n + cs.length := by
  induction h with
  | stop n rest => exact fun x hx => nomatch hx
  | blank _ _ ih =>
      intro x hx
      have hbounds := ih x hx
      rw [List.length_cons]
      omega
  | stray _ _ hmeets ih =>
      have hle := hmeets.length_le
      intro x hx
      rw [List.length_cons]
      rcases List.mem_cons.mp hx with rfl | hx
      · exact ⟨Nat.le_refl _, by omega⟩
      · have hbounds := ih x hx
        omega
  | token hadmits hwrites _ hmeets ih =>
      have hle := hmeets.length_le
      have hpos := hadmits.length_pos hwrites
      intro x hx
      rw [List.length_append]
      rcases List.mem_cons.mp hx with rfl | hx
      · exact ⟨Nat.le_refl _, by omega⟩
      · have hbounds := ih x hx
        omega

theorem Meets.pairwise_lt (h : Meets n cs met rest) : met.Pairwise fun x y => x.1 < y.1 := by
  induction h with
  | stop n rest => exact .nil
  | blank _ _ ih => exact ih
  | stray _ _ hmeets ih =>
      exact .cons (fun y hy => (hmeets.bounds_of_mem y hy).1) ih
  | token hadmits hwrites _ hmeets ih =>
      refine .cons (fun y hy => ?_) ih
      have hle := (hmeets.bounds_of_mem y hy).1
      have hpos := hadmits.length_pos hwrites
      show _ < y.1
      omega

theorem Meets.pairwise_offsets (h : Meets n cs met rest) {p : Nat}
    (hp : p + rest.length = n + cs.length) : (met.map Prod.fst ++ [p]).Pairwise (· < ·) := by
  refine List.pairwise_append.mpr ⟨List.pairwise_map.mpr h.pairwise_lt,
    List.pairwise_singleton _ _, ?_⟩
  intro q hq p' hp'
  obtain ⟨x, hx, rfl⟩ := List.mem_map.mp hq
  obtain rfl := List.mem_singleton.mp hp'
  obtain ⟨-, hbefore⟩ := h.bounds_of_mem x hx
  omega

/-- The events of the pieces of a text are met at offsets whose places they have. -/
theorem Cuts.meets {pieces : List Piece} (h : Cuts cs pieces rest) (front : List Char) :
    ∃ met, Meets front.length cs met rest ∧
      events (Position.start.after front) pieces = met.map Prod.snd ∧
      ∀ x ∈ met, ∃ before, before <+: front ++ cs ∧ before.length = x.1 ∧
        x.2.place = Position.start.after before := by
  -- the places depend on the text in front, so the induction carries it along
  induction h generalizing front with
  | stop rest => exact ⟨[], .stop _ _, rfl, fun x hx => nomatch hx⟩
  | @piece item text cs pieces rest hfits _ ih =>
      obtain ⟨met, hmeets, hevents, hplaces⟩ := ih (front ++ text)
      rw [List.append_assoc] at hplaces
      rw [List.length_append] at hmeets
      rw [Position.after_append] at hevents
      have hfront : front <+: front ++ (text ++ cs) := List.prefix_append _ _
      cases hfits with
      | blank hblank => exact ⟨met, .blank hblank hmeets, hevents, hplaces⟩
      | @stray c _ hstray hnext =>
          refine ⟨_, .stray hstray hnext hmeets, congrArg (List.cons _) hevents, ?_⟩
          exact List.forall_mem_cons.mpr ⟨⟨front, hfront, rfl, rfl⟩, hplaces⟩
      | @token kind lexeme _ _ hadmits hwrites hend =>
          refine ⟨_, .token (t := ⟨kind, lexeme, Position.start.after front⟩) hadmits hwrites hend
            hmeets, congrArg (List.cons _) hevents, ?_⟩
          exact List.forall_mem_cons.mpr ⟨⟨front, hfront, rfl, rfl⟩, hplaces⟩

theorem placeAfter_eq (p : Position) (pieces : List Piece) :
    placeAfter p pieces = p.after (pieces.flatMap Piece.text) := by
  induction pieces generalizing p with
  | nil => rfl
  | cons piece pieces ih =>
      rw [List.flatMap_cons, Position.after_append]
      exact ih (p.after piece.text)

end

end Token

/-! ## Where a scan ends -/

/-- `e.Locates cs p`: the error quotes what stands at the offset `p` of the text `cs`, and says on
which line that is, for a single character also in which column. -/
inductive ScanError.Locates (cs : List Char) (p : Nat) : ScanError → Prop
  | unknownCharacter {c : Char} {place : Position} :
      cs[p]? = some c → place.Names cs p → Locates cs p (.unknownCharacter c place)
  | unterminatedString {text : String} {line : UInt32} :
      cs[p]? = some '"' → cs.drop p = text.toList → line.toNat = Position.lineOf (cs.take p) →
      Locates cs p (.unterminatedString text line)
  | unknownIdentifier {word : String} {line : UInt32} :
      (∃ c, cs[p]? = some c ∧ Token.isWordStart c = true) →
      (cs.drop p).takeWhile Token.isWordChar = word.toList →
      line.toNat = Position.lineOf (cs.take p) → Locates cs p (.unknownIdentifier word line)

namespace Token

theorem Fault.Blames.locates {fault : Fault} {front rest : List Char} {place : Position}
    (h : fault.Blames rest) (hplace : place.Names (front ++ rest) front.length) :
    (fault.locate place).Locates (front ++ rest) front.length := by
  have hline : place.line.toNat = Position.lineOf ((front ++ rest).take front.length) :=
    hplace.line_eq
  have hrest : (front ++ rest).drop front.length = rest := List.drop_left
  have hat : (front ++ rest)[front.length]? = rest.head? := by
    rw [List.getElem?_append_right (Nat.le_refl _), Nat.sub_self, List.head?_eq_getElem?]
  cases h with
  | unterminatedString hbody =>
      refine .unterminatedString hat ?_ hline
      rw [hrest, String.toList_ofList]
  | @unknownWord c cs hc hlookup =>
      refine .unknownIdentifier ⟨c, hat, hc⟩ ?_ hline
      have hchar : isWordChar c = true := isWordChar_of_isWordStart hc
      rw [hrest, String.toList_ofList, List.takeWhile_cons_of_pos hchar]
  | unknownCharacter _ _ _ => exact .unknownCharacter hat hplace

/-- What is dropped in the course of a line is what its scan meets. -/
theorem dropped_mem_records_iff {s : String} {c : Char} {place : Position} :
    .dropped c place ∈ records s ↔ .stray c place ∈ (Trace.ofSource s).events := by
  have hstages : .dropped c place ∉ (Account.ofSource s).progress.records := by
    cases (Account.ofSource s).progress <;> simp [Progress.records]
  constructor
  · intro h
    rcases List.mem_append.mp h with hmet | hstage
    · obtain ⟨event, hevent, hrecord⟩ := List.mem_map.mp hmet
      cases event with
      | token t => exact nomatch hrecord
      | stray d q =>
          cases hrecord
          exact hevent
    · exact absurd hstage hstages
  · intro h
    exact List.mem_append_left _ (List.mem_map.mpr ⟨_, h, rfl⟩)

/-- Every token, the end marker, every dropped character and every error has the place of its
offset. -/
theorem scan_places (s : String) (h : s.toList.count '\n' < 2 ^ 32 - 1) :
    ∃ met p, Meets 0 s.toList met (s.toList.drop p) ∧
      (met.map Prod.fst ++ [p]).Pairwise (· < ·) ∧
      (∀ x ∈ met, x.2.place.Names s.toList x.1) ∧
      (∀ c place, .dropped c place ∈ records s ↔ ∃ q, (q, .stray c place) ∈ met) ∧
      match scan s with
      | .ok ts => p = s.toList.length ∧ ∃ last,
          ts = (met.map Prod.snd).filterMap Event.token? ++ [last] ∧
          last.kind = .endOfInput ∧ last.position.Names s.toList p
      | .error e => e.Locates s.toList p := by
  obtain ⟨rest, hcuts, hleaves⟩ := cuts_cut s.toList
  obtain ⟨met, hmeets, hevents, hplaces⟩ := hcuts.meets []
  have hmeets : Meets 0 s.toList met rest := hmeets
  have hs := hcuts.eq_append
  have hend := placeAfter_eq .start (cut s.toList).pieces
  -- the offset where the scan ends is the length of what its pieces cover
  generalize (cut s.toList).pieces.flatMap Piece.text = front at hs hend
  have hrest : s.toList.drop front.length = rest := by rw [hs, List.drop_left]
  have hlast := Position.names_after h ⟨rest, hs.symm⟩
  have hlength : s.toList.length = front.length + rest.length := by rw [hs, List.length_append]
  rw [← hend] at hlast
  have hoffsets := hmeets.pairwise_offsets (p := front.length) (by omega)
  refine ⟨met, front.length, by rwa [hrest], hoffsets, ?_, ?_, ?_⟩
  · intro x hx
    obtain ⟨before, hbefore, hq, hplace⟩ := hplaces x hx
    rw [hplace, ← hq]
    exact Position.names_after h hbefore
  · intro c place
    have htrace : (Trace.ofSource s).events = met.map Prod.snd := hevents
    rw [dropped_mem_records_iff, htrace]
    simp
  · cases hfault : (cut s.toList).fault with
    | none =>
        rw [hfault] at hleaves
        cases hleaves with
        | nothing =>
            rw [scan_eq hfault]
            refine ⟨hlength.symm, endAt _, ?_, rfl, hlast⟩
            rw [← hevents]
            rfl
    | some fault =>
        rw [hfault] at hleaves
        cases hleaves with
        | blamed hblames =>
            rw [scan_eq_error hfault, hs]
            rw [hs] at hlast
            exact hblames.locates hlast

/-- After a string over two lines, a stray character and a number on the second line. -/
theorem scan_places_of_two_lines :
    let s := "\"é\n\" & 1"
    let body : List Token := [⟨.string, "é\n", ⟨1, 1⟩⟩, ⟨.integer, "1", ⟨2, 5⟩⟩]
    s.toList.count '\n' < 2 ^ 32 - 1 ∧ scan s = .ok (body ++ [endAt ⟨2, 6⟩]) ∧
      ∃ met, Meets 0 s.toList met [] ∧ (met.map Prod.snd).filterMap Event.token? = body ∧
        (∀ x ∈ met, x.2.place.Names s.toList x.1) ∧
        Position.Names ⟨2, 6⟩ s.toList s.toList.length := by
  intro s body
  have hfeeds : s.toList.count '\n' < 2 ^ 32 - 1 := by decide
  have hscan : scan s = .ok (body ++ [endAt ⟨2, 6⟩]) := by decide +kernel
  obtain ⟨met, p, hmeets, -, hplaces, -, hend⟩ := scan_places s hfeeds
  rw [hscan] at hend
  obtain ⟨rfl, last, hts, -, hlast⟩ := hend
  obtain ⟨hbody, hone⟩ := List.append_inj' hts rfl
  obtain rfl := List.singleton_inj.mp hone
  rw [List.drop_length] at hmeets
  exact ⟨hfeeds, hscan, met, hmeets, hbody.symm, hplaces, hlast⟩

end Token

end LineCalc
