/-
# `LineCalc.Proofs.Text.Lines` — cutting a text into lines

Splitting after each line feed is the one operation under the lines of a file, the lines
of an input and the lines of what is written.  Three facts about it carry the rest.

It is a homomorphism at every line feed (`splitAfter_append`), so a text in front that
ends with one is cut by itself, into as many pieces as it has line feeds.  It does not
matter whether it works on characters or on their bytes (`splitAfter_encode`), as only a
line feed has the byte of a line feed in its encoding; hence a text read as bytes, each
line decoded by itself, has the lines of the text (`byteLines_toUTF8`).  And it undoes
`unlines` if no line holds a line feed itself (`splitAfter_unlines`).
-/
import LineCalc.Text.Lines

namespace LineCalc.Text

/-! ## Splitting -/

section
variable {α : Type} {stop : α} {xs : List α}

/-- `Closed stop xs`: the list `xs` is empty or ends with `stop`. -/
def Closed (stop : α) (xs : List α) : Prop := ∀ x ∈ xs.getLast?, x = stop

theorem Closed.tail {x y : α} (h : Closed stop (x :: y :: xs)) : Closed stop (y :: xs) := by
  intro z hz
  refine h z ?_
  rwa [List.getLast?_cons_cons]

theorem Closed.eq_stop {x : α} (h : Closed stop [x]) : x = stop := h x rfl

variable [DecidableEq α]

theorem consSplit_stop (pieces : List (List α)) :
    consSplit stop stop pieces = [stop] :: pieces := by
  cases pieces with
  | nil => rfl
  | cons p ps => exact if_pos rfl

theorem consSplit_of_ne {x : α} (h : x ≠ stop) (p : List α) (ps : List (List α)) :
    consSplit stop x (p :: ps) = (x :: p) :: ps := if_neg h

theorem consSplit_ne_nil (x : α) (pieces : List (List α)) : consSplit stop x pieces ≠ [] := by
  cases pieces with
  | nil => exact List.cons_ne_nil _ _
  | cons p ps =>
      by_cases hx : x = stop
      · subst hx
        rw [consSplit_stop]
        exact List.cons_ne_nil _ _
      · rw [consSplit_of_ne hx]
        exact List.cons_ne_nil _ _

theorem consSplit_append {x : α} {pieces : List (List α)} (h : pieces ≠ [])
    (more : List (List α)) :
    consSplit stop x (pieces ++ more) = consSplit stop x pieces ++ more := by
  obtain ⟨p, ps, rfl⟩ := List.exists_cons_of_ne_nil h
  by_cases hx : x = stop
  · subst hx
    rw [consSplit_stop, consSplit_stop]
    rfl
  · rw [List.cons_append, consSplit_of_ne hx, consSplit_of_ne hx]
    rfl

theorem splitAfter_cons (x : α) (xs : List α) :
    splitAfter stop (x :: xs) = consSplit stop x (splitAfter stop xs) := rfl

/-- A list that is closed is split by itself, whatever comes after it. -/
theorem splitAfter_append (h : Closed stop xs) (ys : List α) :
    splitAfter stop (xs ++ ys) = splitAfter stop xs ++ splitAfter stop ys := by
  induction xs with
  | nil => rfl
  | cons x xs ih =>
      cases xs with
      | nil =>
          obtain rfl := h.eq_stop
          show consSplit x x (splitAfter x ys) = consSplit x x [] ++ splitAfter x ys
          rw [consSplit_stop, consSplit_stop]
          rfl
      | cons y xs =>
          rw [List.cons_append, splitAfter_cons, ih h.tail, splitAfter_cons x]
          exact consSplit_append (consSplit_ne_nil _ _) _

theorem length_splitAfter (h : Closed stop xs) : (splitAfter stop xs).length = xs.count stop := by
  induction xs with
  | nil => rfl
  | cons x xs ih =>
      by_cases hx : x = stop
      · subst hx
        rw [splitAfter_cons, consSplit_stop, List.length_cons, List.count_cons_self]
        cases xs with
        | nil => rfl
        | cons y xs => rw [ih h.tail]
      · cases xs with
        | nil => exact absurd h.eq_stop hx
        | cons y xs =>
            rw [List.count_cons_of_ne hx, ← ih h.tail, splitAfter_cons]
            obtain ⟨p, ps, hpieces⟩ := List.exists_cons_of_ne_nil
              (consSplit_ne_nil y (splitAfter stop xs))
            rw [splitAfter_cons, hpieces, consSplit_of_ne hx]
            rfl

theorem mem_splitAfter {piece : List α} (h : piece ∈ splitAfter stop xs) :
    piece ≠ [] ∧ stop ∉ piece.dropLast := by
  induction xs generalizing piece with
  | nil => exact nomatch h
  | cons x xs ih =>
      have hsingle : [x] ≠ [] ∧ stop ∉ [x].dropLast := ⟨List.cons_ne_nil _ _, List.not_mem_nil⟩
      rw [splitAfter_cons] at h
      by_cases hx : x = stop
      · subst hx
        rw [consSplit_stop] at h
        rcases List.mem_cons.mp h with rfl | h
        · exact hsingle
        · exact ih h
      · cases hpieces : splitAfter stop xs with
        | nil =>
            rw [hpieces] at h
            obtain rfl := List.mem_singleton.mp h
            exact hsingle
        | cons p ps =>
            rw [hpieces] at h ih
            rw [consSplit_of_ne hx] at h
            rcases List.mem_cons.mp h with rfl | h
            · obtain ⟨hp, hstop⟩ := ih List.mem_cons_self
              refine ⟨List.cons_ne_nil _ _, ?_⟩
              rw [List.dropLast_cons_of_ne_nil hp]
              exact List.not_mem_cons_of_ne_of_not_mem (Ne.symm hx) hstop
            · exact ih (List.mem_cons_of_mem p h)

theorem foldr_consSplit {x : α} (hx : x ≠ stop) (hxs : stop ∉ xs) (pieces : List (List α)) :
    (x :: xs).foldr (consSplit stop) pieces
      = (x :: xs ++ pieces.headD []) :: pieces.tail := by
  induction xs generalizing x with
  | nil =>
      cases pieces with
      | nil => rfl
      | cons p ps => exact consSplit_of_ne hx p ps
  | cons y xs ih =>
      have hy : y ≠ stop := by
        rintro rfl
        exact hxs List.mem_cons_self
      rw [List.foldr_cons, ih hy fun h => hxs (List.mem_cons_of_mem y h), consSplit_of_ne hx]
      rfl

theorem splitAfter_line (h : stop ∉ xs) (ys : List α) :
    splitAfter stop (xs ++ stop :: ys) = (xs ++ [stop]) :: splitAfter stop ys := by
  have hstop : splitAfter stop (stop :: ys) = [stop] :: splitAfter stop ys := consSplit_stop _
  cases xs with
  | nil => exact hstop
  | cons x xs =>
      have hx : x ≠ stop := by
        rintro rfl
        exact h List.mem_cons_self
      rw [splitAfter, List.foldr_append, ← splitAfter, hstop,
        foldr_consSplit hx fun hmem => h (List.mem_cons_of_mem x hmem)]
      rfl

end

/-! ## Characters and bytes -/

def encode (cs : List Char) : List UInt8 := cs.flatMap String.utf8EncodeChar

theorem encode_cons (c : Char) (cs : List Char) :
    encode (c :: cs) = String.utf8EncodeChar c ++ encode cs := rfl

theorem encode_toList (text : String) : text.toUTF8.data.toList = encode text.toList := by
  rw [String.toUTF8_eq_toByteArray, ← String.utf8Encode_toList]
  exact List.toList_data_toByteArray

theorem feed_ne_ofNat {n : Nat} (h : n % 256 ≠ 10) : (10 : UInt8) ≠ UInt8.ofNat n := by
  intro heq
  have htoNat := congrArg UInt8.toNat heq
  rw [UInt8.toNat_ofNat'] at htoNat
  exact h htoNat.symm

/-- No character but a line feed has the byte of a line feed in its encoding. -/
theorem feed_not_mem_utf8EncodeChar {c : Char} (hc : c ≠ '\n') :
    (10 : UInt8) ∉ String.utf8EncodeChar c := by
  have hne : c.val.toNat ≠ 10 := by
    intro h
    exact hc (Char.ext (UInt32.toNat_inj.mp h))
  -- of two bytes or more, each is at least 128
  unfold String.utf8EncodeChar
  intro hmem
  dsimp only at hmem
  split at hmem
  · rw [List.mem_singleton] at hmem
    exact feed_ne_ofNat (by omega) hmem
  · have hbytes : ∀ n, 128 ≤ n → n < 256 → (10 : UInt8) ≠ UInt8.ofNat n := by
      intro n hlow hhigh
      exact feed_ne_ofNat (by omega)
    split at hmem
    · simp only [List.mem_cons, List.not_mem_nil, or_false] at hmem
      rcases hmem with h | h <;> exact hbytes _ (by omega) (by omega) h
    · split at hmem
      · simp only [List.mem_cons, List.not_mem_nil, or_false] at hmem
        rcases hmem with h | h | h <;> exact hbytes _ (by omega) (by omega) h
      · simp only [List.mem_cons, List.not_mem_nil, or_false] at hmem
        rcases hmem with h | h | h | h <;> exact hbytes _ (by omega) (by omega) h

theorem fromUTF8?_toByteArray (text : String) : String.fromUTF8? text.toByteArray = some text :=
  dif_pos text.isValidUTF8

/-- Splitting the bytes of a text splits its characters. -/
theorem splitAfter_encode (cs : List Char) :
    splitAfter 10 (encode cs) = (splitAfter '\n' cs).map encode := by
  induction cs with
  | nil => rfl
  | cons c cs ih =>
      rw [encode_cons, splitAfter, List.foldr_append, ← splitAfter, ih, splitAfter_cons]
      by_cases hc : c = '\n'
      · subst hc
        rw [consSplit_stop, List.map_cons]
        exact consSplit_stop _
      · obtain ⟨b, bs, hbytes⟩ := List.exists_cons_of_ne_nil (String.utf8EncodeChar_ne_nil (c := c))
        have hfeed := feed_not_mem_utf8EncodeChar hc
        rw [hbytes] at hfeed
        obtain ⟨hb, hbs⟩ := List.ne_and_not_mem_of_not_mem_cons hfeed
        rw [hbytes, foldr_consSplit (Ne.symm hb) hbs, ← hbytes]
        cases splitAfter '\n' cs with
        | nil => rfl
        | cons p ps =>
            rw [consSplit_of_ne hc]
            rfl

theorem decodeLine?_encode (cs : List Char) :
    decodeLine? (encode cs) = some (String.ofList (chomp cs)) := by
  have hbytes : ByteArray.mk (encode cs).toArray = (String.ofList cs).toByteArray := by
    rw [String.toByteArray_ofList]
    exact ByteArray.ext List.data_toByteArray.symm
  rw [decodeLine?, hbytes, fromUTF8?_toByteArray]
  simp only [Option.map_some, String.toList_ofList]

/-- A text that is read as bytes, line by line, has the lines of the text. -/
theorem byteLines_toUTF8 (text : String) : byteLines text.toUTF8 = (lines text).map some := by
  rw [byteLines, encode_toList, splitAfter_encode, lines, List.map_map, List.map_map]
  exact List.map_congr_left fun piece _ => decodeLine?_encode piece

/-! ## Lines -/

/-- A text is a single line if no line feed is in it. -/
def OneLine (text : String) : Prop := '\n' ∉ text.toList

instance (text : String) : Decidable (OneLine text) :=
  inferInstanceAs (Decidable ('\n' ∉ text.toList))

theorem oneLine_append {s t : String} : OneLine (s ++ t) ↔ OneLine s ∧ OneLine t := by
  rw [OneLine, String.toList_append, List.mem_append]
  exact not_or

theorem oneLine_ofList {cs : List Char} : OneLine (String.ofList cs) ↔ '\n' ∉ cs := by
  rw [OneLine, String.toList_ofList]

theorem feed_not_mem_chomp {piece : List Char} (h : '\n' ∉ piece.dropLast) :
    '\n' ∉ chomp piece := by
  have hdropLast : ∀ {rest : List Char}, piece.reverse = '\n' :: rest →
      piece.dropLast = rest.reverse := by
    intro rest hrest
    have hpiece := congrArg List.reverse hrest
    rw [List.reverse_reverse, List.reverse_cons] at hpiece
    rw [hpiece, List.dropLast_concat]
  unfold chomp
  split
  next rest hrest =>
    rw [hdropLast hrest, List.reverse_cons] at h
    exact fun hmem => h (List.mem_append_left _ hmem)
  next rest _ hrest =>
    rw [hdropLast hrest] at h
    exact h
  next _ hother =>
    intro hmem
    cases hrev : piece.reverse with
    | nil =>
        rw [List.reverse_eq_nil_iff.mp hrev] at hmem
        exact nomatch hmem
    | cons c rest =>
        have hpiece := congrArg List.reverse hrev
        rw [List.reverse_reverse, List.reverse_cons] at hpiece
        rw [hpiece, List.dropLast_concat] at h
        rw [hpiece, List.mem_append, List.mem_singleton] at hmem
        rcases hmem with hmem | rfl
        · exact h hmem
        · exact hother rest hrev

theorem oneLine_of_mem_lines {text line : String} (h : line ∈ lines text) : OneLine line := by
  obtain ⟨piece, hpiece, rfl⟩ := List.mem_map.mp h
  rw [oneLine_ofList]
  exact feed_not_mem_chomp (mem_splitAfter hpiece).2

theorem lines_append {front : String} (h : Closed '\n' front.toList) (text : String) :
    lines (front ++ text) = lines front ++ lines text := by
  rw [lines, String.toList_append, splitAfter_append h, List.map_append]
  rfl

theorem length_lines {text : String} (h : Closed '\n' text.toList) :
    (lines text).length = text.toList.count '\n' := by
  rw [lines, List.length_map, length_splitAfter h]

/-! ## Written lines -/

theorem toList_unlines (ls : List String) :
    (unlines ls).toList = ls.flatMap fun line => line.toList ++ ['\n'] := by
  simp [unlines, String.toList_join, List.flatMap_map]

theorem unlines_append (ls ls' : List String) :
    unlines (ls ++ ls') = unlines ls ++ unlines ls' := by
  simp [unlines, String.join_append]

theorem unlines_flatMap {α : Type} (f : α → List String) (xs : List α) :
    unlines (xs.flatMap f) = String.join (xs.map fun x => unlines (f x)) := by
  induction xs with
  | nil => rfl
  | cons x xs ih => rw [List.flatMap_cons, unlines_append, ih, List.map_cons, String.join_cons]

/-- Lines that are written are found again, if each of them is a single line. -/
theorem splitAfter_unlines {ls : List String} (h : ∀ line ∈ ls, OneLine line) :
    splitAfter '\n' (unlines ls).toList = ls.map fun line => line.toList ++ ['\n'] := by
  rw [toList_unlines]
  induction ls with
  | nil => rfl
  | cons line ls ih =>
      have hline := h line List.mem_cons_self
      rw [List.flatMap_cons, List.append_assoc, List.singleton_append, splitAfter_line hline,
        ih fun l hl => h l (List.mem_cons_of_mem line hl)]
      rfl

end LineCalc.Text
