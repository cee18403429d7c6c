/-
# `LineCalc.Proofs.Token.Reader` — a text read at byte offsets

A text is cut into lists of characters.  A reader comes to the same while it holds no text at
all: only what is ahead of it, each character with the byte offset that it begins at, and the
place of the next one.  It takes a piece of the source between two offsets, which there
must be, and it counts lines, of which there must not be too many; otherwise it ends in a
breach.

Where the reader stands, an offset is the length of the text before it.  That is the
invariant which every slice relies on (`slice_of_append`), and the line that is counted
leaves room for the line feeds ahead.  From both, a reader does on every text what the cut
of the text does (`Reader.scan_eq`).
-/
import LineCalc.Proofs.Token.Places
import LineCalc.Proofs.Walk

namespace LineCalc

def Position.right (p : Position) : Position :=
  ⟨p.line, if p.column = lastColumn then lastColumn else p.column + 1⟩

theorem Position.next_of_ne {c : Char} (h : c ≠ '\n') (p : Position) : p.next c = p.right :=
  if_neg h

theorem Position.line_after_of_ne {cs : List Char} (h : ∀ c ∈ cs, c ≠ '\n') (p : Position) :
    (p.after cs).line = p.line := by
  induction cs generalizing p with
  | nil => rfl
  | cons c cs ih =>
      rw [after_cons, ih fun d hd => h d (List.mem_cons_of_mem c hd)]
      exact line_next_of_ne (h c List.mem_cons_self) p

namespace Token

/-- What a reader is not prepared for. -/
inductive Breach where
  /-- A slice from one byte offset to another that lies in front of it, or one that does not begin
  and end between characters of the source. -/
  | noSlice (start stop : Nat)
  /-- A line feed on the last line that is counted. -/
  | lineOverflow
deriving DecidableEq, Repr

/-- A walk over a text; its notes are what it meets. -/
abbrev Scan (α : Type) := Walk Event (Stop ScanError Breach) α

/-! ## Slices -/

/-- The text between two byte offsets of the source. -/
def slice (source : String) (start stop : Nat) : Scan String :=
  if h : start ≤ stop ∧ (⟨start⟩ : String.Pos.Raw).IsValid source ∧
      (⟨stop⟩ : String.Pos.Raw).IsValid source then
    pure (source.extract ⟨⟨start⟩, h.2.1⟩ ⟨⟨stop⟩, h.2.2⟩)
  else Walk.stop (.breach (.noSlice start stop))

theorem isValid_of_append {source : String} {front rest : List Char}
    (h : source.toList = front ++ rest) :
    (⟨String.utf8Len front⟩ : String.Pos.Raw).IsValid source := by
  refine String.Pos.Raw.isValid_iff_exists_append.mpr
    ⟨String.ofList front, String.ofList rest, ?_, ?_⟩
  · rw [← String.ofList_append, ← h, String.ofList_toList]
  · exact (String.rawEndPos_ofList front).symm

theorem extract_of_append {source : String} {front text rest : List Char}
    (h : source.toList = front ++ text ++ rest) :
    source.toByteArray.extract (String.utf8Len front) (String.utf8Len (front ++ text))
      = (String.ofList text).toByteArray := by
  have hsource : source = String.ofList front ++ (String.ofList text ++ String.ofList rest) := by
    rw [← String.ofList_append, ← String.ofList_append, ← List.append_assoc, ← h,
      String.ofList_toList]
  have hfront : String.utf8Len front = (String.ofList front).toByteArray.size :=
    (String.utf8ByteSize_ofList front).symm
  have htext : String.utf8Len text = (String.ofList text).toByteArray.size :=
    (String.utf8ByteSize_ofList text).symm
  rw [hsource, String.toByteArray_append, String.toByteArray_append, String.utf8Len_append]
  conv => lhs; arg 2; rw [← Nat.add_zero (String.utf8Len front)]
  rw [ByteArray.extract_append_size_add' hfront]
  exact ByteArray.extract_append_eq_left htext

theorem slice_of_append {source : String} (front text rest : List Char)
    (h : source.toList = front ++ text ++ rest) :
    slice source (String.utf8Len front) (String.utf8Len (front ++ text))
      = pure (String.ofList text) := by
  have hstart := isValid_of_append ((List.append_assoc front text rest) ▸ h)
  have hle : String.utf8Len front ≤ String.utf8Len (front ++ text) := by
    rw [String.utf8Len_append]
    exact Nat.le_add_right _ _
  rw [slice, dif_pos ⟨hle, hstart, isValid_of_append h⟩]
  exact congrArg pure (String.toByteArray_inj.mp (extract_of_append h))

/-! ## Readers -/

/-- What is ahead in a text, each character with the byte offset that it begins at, and the place
of the next one. -/
structure Reader where
  ahead : List (Nat × Char)
  place : Position
deriving DecidableEq, Repr

namespace Reader

/-- The characters of a text that begins at a byte offset, each with its own. -/
def indices (offset : Nat) : List Char → List (Nat × Char)
  | [] => []
  | c :: cs => (offset, c) :: indices (offset + c.utf8Size) cs

def ofSource (source : String) : Reader := ⟨indices 0 source.toList, .start⟩

abbrev Short (n : Nat) := { r : Reader // r.ahead.length < n }

/-- Takes the next character, if it is wanted. -/
def take? (wanted : Char → Bool) : (r : Reader) → Option ((Nat × Char) × Short r.ahead.length)
  | ⟨[], _⟩ => none
  | ⟨(offset, c) :: ahead, place⟩ =>
      if wanted c then some ((offset, c), ⟨⟨ahead, place.right⟩, Nat.lt_succ_self _⟩) else none

/-- The source from the offset `start` up to the next character. -/
def span (source : String) (start : Nat) (r : Reader) : Scan String :=
  match r.ahead with
  | [] => slice source start source.utf8ByteSize
  | (stop, _) :: _ => slice source start stop

/-- The place after the character `c`, once its column is counted: a line feed ends the line. -/
def endLine (c : Char) (p : Position) : Scan Position :=
  if c ≠ '\n' then pure p
  else if p.line.toNat + 1 < 2 ^ 32 then pure ⟨p.line + 1, 1⟩
  else Walk.stop (.breach .lineOverflow)

/-- What a character begins, unless it belongs to no token: a kind and a lexeme. -/
abbrev Lexed := Option (Kind × String)

namespace Short

variable {n : Nat}

def trans (r : Short n) (r' : Short r.1.ahead.length) : Short n := ⟨r'.1, Nat.lt_trans r'.2 r.2⟩

/-- Moves on over all characters that are wanted. -/
def skip (wanted : Char → Bool) (r : Short n) : Short n :=
  match r.1.take? wanted with
  | some (_, r') => skip wanted (r.trans r')
  | none => r
termination_by r.1.ahead.length
decreasing_by exact r'.2

abbrev isBody (c : Char) : Bool := c != '"'

/-- Moves on up to the next quote, and counts the lines. -/
def skipBody (r : Short n) : Scan (Short n) :=
  match r.1.take? isBody with
  | some ((_, c), r') => do
      let place ← endLine c r'.1.place
      skipBody ⟨⟨r'.1.ahead, place⟩, Nat.lt_trans r'.2 r.2⟩
  | none => pure r
termination_by r.1.ahead.length
decreasing_by exact r'.2

/-- The kind that `c` spells together with the next character, which is taken then. -/
def chase? (c : Char) (r : Short n) : Option (Kind × Short n) :=
  match r.1.take? fun d => (double? c d).isSome with
  | some ((_, d), r') => (double? c d).map fun kind => (kind, r.trans r')
  | none => none

/-- Ends a string at the next character, a quote.  The opening quote is at the offset `start` and
on the line `line`. -/
def closeString (source : String) (start : Nat) (line : UInt32) (r : Short n) :
    Scan (Lexed × Short n) :=
  match r.1.take? fun _ => true with
  | some ((stop, _), r') => do
      let text ← slice source (start + 1) stop
      return (some (.string, text), r.trans r')
  | none => do
      let text ← slice source start source.utf8ByteSize
      Walk.stop (.error (.unterminatedString text line))

/-- Reads a string, whose opening quote is at the offset `start`. -/
def string (source : String) (start : Nat) (r : Short n) : Scan (Lexed × Short n) := do
  let d ← r.skipBody
  d.closeString source start r.1.place.line

def number (source : String) (start : Nat) (r : Short n) : Scan (Lexed × Short n) := do
  let r := r.skip isNumeral
  let lexeme ← r.1.span source start
  return (some (numberKind lexeme.toList, lexeme), r)

def word (source : String) (start : Nat) (r : Short n) : Scan (Lexed × Short n) := do
  let r := r.skip isWordChar
  let text ← r.1.span source start
  match Reserved.lookup? text.toList with
  | some lexed => return (some lexed, r)
  | none => Walk.stop (.error (.unknownIdentifier text r.1.place.line))

/-- Reads on after the character `c`, which begins at the offset `start` and stands in the column
`column`. -/
def lex (source : String) (start : Nat) (c : Char) (column : UInt32) (r : Short n) :
    Scan (Lexed × Short n) :=
  if c = '\n' then do
    let place ← endLine c r.1.place
    return (none, ⟨⟨r.1.ahead, place⟩, r.2⟩)
  else if isBlank c then return (none, r)
  else
    match r.chase? c with
    | some (kind, r) => do return (some (kind, ← r.1.span source start), r)
    | none =>
      match single? c with
      | some kind => do return (some (kind, ← r.1.span source start), r)
      | none =>
        if isStray c then do
          Walk.note (.stray c ⟨r.1.place.line, column⟩)
          return (none, r)
        else if c = '"' then r.string source start
        else if c.isDigit then r.number source start
        else if isWordStart c then r.word source start
        else Walk.stop (.error (.unknownCharacter c ⟨r.1.place.line, column⟩))

end Short

/-- Reads the source to its end: its tokens and stray characters are noted, and the result is the
place of the end. -/
def scan (source : String) (r : Reader) : Scan Position :=
  match r.take? fun _ => true with
  | none => return r.place
  | some ((start, c), d) => do
      let (lexed, d) ← d.lex source start c r.place.column
      match lexed with
      | some (kind, lexeme) => Walk.note (.token ⟨kind, lexeme, r.place⟩)
      | none => pure ()
      scan source d.1
termination_by r.ahead.length
decreasing_by exact d.2

/-! ## What a reader does between two texts -/

/-- A reader that has the text `front` behind it and `rest` ahead. -/
def between (front rest : List Char) (p : Position) : Reader :=
  ⟨indices (String.utf8Len front) rest, p⟩

theorem place_between (front rest : List Char) (p : Position) : (between front rest p).place = p :=
  rfl

section
variable {front rest text : List Char} {c : Char} {cs : List Char} {p : Position} {n : Nat}
  {wanted : Char → Bool} {source : String}

theorem take?_between (wanted : Char → Bool) (front cs : List Char) (p : Position)
    (hc : wanted c = true) :
    ∃ h, (between front (c :: cs) p).take? wanted
      = some ((String.utf8Len front, c), ⟨between (front ++ [c]) cs p.right, h⟩) := by
  have hnext : between (front ++ [c]) cs p.right
      = ⟨indices (String.utf8Len front + c.utf8Size) cs, p.right⟩ := by
    rw [between, String.utf8Len_append, String.utf8Len_cons, String.utf8Len_nil, Nat.zero_add]
  rw [hnext]
  exact ⟨Nat.lt_succ_self _, if_pos hc⟩

theorem take?_between_of_not (wanted : Char → Bool) (front cs : List Char) (p : Position)
    (hc : wanted c = false) :
    (between front (c :: cs) p).take? wanted = none :=
  if_neg (Bool.eq_false_iff.mp hc)

/-- Whatever a reader has in front, a slice that ends before what is ahead is cut out of that. -/
theorem span_between (h : source.toList = front ++ text ++ rest) :
    (between (front ++ text) rest p).span source (String.utf8Len front)
      = pure (String.ofList text) := by
  cases rest with
  | nil =>
      have hsize : source.utf8ByteSize = String.utf8Len (front ++ text) := by
        rw [← String.utf8Len_toList, h, List.append_nil]
      rw [span, between, indices, hsize]
      exact slice_of_append _ _ _ h
  | cons c rest => exact slice_of_append _ _ _ h

/-- The counter of lines has room for the line feeds of a text ahead. -/
def Room (p : Position) (cs : List Char) : Prop := p.line.toNat + cs.count '\n' < 2 ^ 32

theorem Room.after (text : List Char) (h : Room p (text ++ rest)) : Room (p.after text) rest := by
  rw [Room, List.count_append] at h
  rw [Room, Position.line_after_of_lt (by omega)]
  omega

theorem endLine_eq (h : Room p (c :: cs)) : endLine c p.right = pure (p.next c) := by
  unfold endLine
  by_cases hc : c = '\n'
  · subst hc
    rw [Room, List.count_cons_self] at h
    have hlt : p.right.line.toNat + 1 < 2 ^ 32 := by
      show p.line.toNat + 1 < 2 ^ 32
      omega
    rw [if_neg (not_not.mpr rfl), if_pos hlt]
    rfl
  · rw [if_pos hc, Position.next_of_ne hc]

namespace Short

theorem skip_between (hwanted : ∀ c, wanted c = true → c ≠ '\n')
    (h : (between front cs p).ahead.length < n) :
    (skip wanted ⟨between front cs p, h⟩).1
      = between (front ++ cs.takeWhile wanted) (cs.dropWhile wanted)
          (p.after (cs.takeWhile wanted)) := by
  induction cs generalizing front p with
  | nil =>
      rw [skip, List.takeWhile_nil, List.append_nil]
      rfl
  | cons c cs ih =>
      rw [skip]
      cases hc : wanted c with
      | true =>
          obtain ⟨h', htake⟩ := take?_between _ front cs p hc
          rw [htake, List.takeWhile_cons_of_pos hc, List.dropWhile_cons_of_pos hc,
            Position.after_cons, Position.next_of_ne (hwanted c hc)]
          exact (ih _).trans (by rw [List.append_assoc]; rfl)
      | false =>
          have hneg : ¬ wanted c = true := Bool.eq_false_iff.mp hc
          rw [take?_between_of_not _ front cs p hc, List.takeWhile_cons_of_neg hneg,
            List.dropWhile_cons_of_neg hneg, List.append_nil]
          rfl

/-- `Comes w r`: the walk `w` meets nothing and comes to the reader `r`. -/
def Comes (w : Scan (Short n)) (r : Reader) : Prop := ∃ h, w = pure ⟨r, h⟩

theorem skipBody_between (hroom : Room p cs) (h : (between front cs p).ahead.length < n) :
    Comes (skipBody ⟨between front cs p, h⟩)
      (between (front ++ cs.takeWhile isBody) (cs.dropWhile isBody)
        (p.after (cs.takeWhile isBody))) := by
  induction cs generalizing front p with
  | nil =>
      rw [skipBody, List.takeWhile_nil, List.append_nil]
      exact ⟨h, rfl⟩
  | cons c cs ih =>
      rw [skipBody]
      cases hc : isBody c with
      | true =>
          obtain ⟨h', htake⟩ := take?_between _ front cs p hc
          have hmore := ih (hroom.after [c]) (Nat.lt_trans h' h)
          rw [List.append_assoc] at hmore
          rw [htake, List.takeWhile_cons_of_pos hc, List.dropWhile_cons_of_pos hc]
          dsimp only
          rw [place_between, endLine_eq hroom]
          exact hmore
      | false =>
          have hneg : ¬ isBody c = true := Bool.eq_false_iff.mp hc
          rw [take?_between_of_not _ front cs p hc, List.takeWhile_cons_of_neg hneg,
            List.dropWhile_cons_of_neg hneg, List.append_nil]
          exact ⟨h, rfl⟩

theorem skip_after (hc : c ≠ '\n') (hwanted : ∀ d, wanted d = true → d ≠ '\n')
    (h : (between (front ++ [c]) cs p.right).ahead.length < n) :
    ∃ h', skip wanted ⟨between (front ++ [c]) cs p.right, h⟩
      = ⟨between (front ++ c :: cs.takeWhile wanted) (cs.dropWhile wanted)
          (p.after (c :: cs.takeWhile wanted)), h'⟩ := by
  have hskip := skip_between hwanted h
  rw [List.append_assoc] at hskip
  rw [Position.after_cons, Position.next_of_ne hc]
  exact ⟨hskip ▸ (skip wanted ⟨between (front ++ [c]) cs p.right, h⟩).2, Subtype.ext hskip⟩

theorem chase?_of_double? {d : Char} {kind : Kind} (hkind : double? c d = some kind)
    (h : (between front (d :: cs) p).ahead.length < n) :
    ∃ h', chase? c ⟨between front (d :: cs) p, h⟩
      = some (kind, ⟨between (front ++ [d]) cs p.right, h'⟩) := by
  have hwanted : (double? c d).isSome = true := congrArg Option.isSome hkind
  obtain ⟨h', htake⟩ := take?_between (fun d => (double? c d).isSome) front cs p hwanted
  refine ⟨Nat.lt_trans h' h, ?_⟩
  rw [chase?, htake]
  dsimp only
  rw [hkind]
  rfl

theorem chase?_eq_none (hcs : cs.head?.bind (double? c) = none)
    (h : (between front cs p).ahead.length < n) : chase? c ⟨between front cs p, h⟩ = none := by
  rw [chase?]
  cases cs with
  | nil => rfl
  | cons d cs =>
      have hnone : double? c d = none := hcs
      rw [take?_between_of_not _ front cs p (by rw [hnone]; rfl)]

end Short

end

/-! ## Pieces -/

/-- What an item is to a reader: its kind and lexeme, if it is a token. -/
def lexed : Item → Lexed
  | .token kind lexeme => some (kind, lexeme)
  | .stray _ | .blank => none

/-- What a reader notes of an item before it is a token. -/
def dropped (p : Position) : Item → List Event
  | .stray c => [.stray c p]
  | .token _ _ | .blank => []

/-- `Finds w p item r`: the walk `w` finds the item at the place `p` and comes to the reader `r`. -/
def Finds {n : Nat} (w : Scan (Lexed × Short n)) (p : Position) (item : Item) (r : Reader) : Prop :=
  ∃ h, w = ⟨dropped p item, .ok (lexed item, ⟨r, h⟩)⟩

/-- `Agrees w front p c cs x`: after the text `front`, before `c :: cs` and at the place `p`, the
walk `w` comes to what `x` says of the first piece. -/
def Agrees {n : Nat} (w : Scan (Lexed × Short n)) (front : List Char) (p : Position) (c : Char)
    (cs : List Char) : Except Fault (Item × Nat) → Prop
  | .ok (item, k) =>
      Finds w p item (between (front ++ c :: cs.take k) (cs.drop k) (p.after (c :: cs.take k)))
  | .error fault => w = Walk.stop (.error (fault.locate p))

section
variable {front cs : List Char} {c : Char} {p : Position} {n : Nat} {source : String}

theorem isNumeral_ne_feed {d : Char} (hd : isNumeral d = true) : d ≠ '\n' := by
  rintro rfl
  exact nomatch hd

theorem isWordChar_ne_feed {d : Char} (hd : isWordChar d = true) : d ≠ '\n' := by
  rintro rfl
  exact nomatch hd

namespace Short

theorem number_agrees (hsource : source.toList = front ++ c :: cs) (hc : c.isDigit = true)
    (h : (between (front ++ [c]) cs p.right).ahead.length < n) :
    Agrees (number source (String.utf8Len front) ⟨between (front ++ [c]) cs p.right, h⟩)
      front p c cs (.ok (firstNumber c cs)) := by
  have hfeed : c ≠ '\n' := isNumeral_ne_feed (Bool.or_eq_true_iff.mpr (Or.inl hc))
  obtain ⟨h', hskip⟩ := skip_after (p := p) hfeed (fun _ => isNumeral_ne_feed) h
  have htext : source.toList
      = front ++ (c :: cs.takeWhile isNumeral) ++ cs.dropWhile isNumeral := by
    rw [hsource, List.append_assoc, List.cons_append, List.takeWhile_append_dropWhile]
  rw [number, hskip]
  dsimp only
  rw [span_between htext, Walk.pure_bind, String.toList_ofList, firstNumber, Agrees,
    take_length_takeWhile, drop_length_takeWhile]
  exact ⟨h', rfl⟩

theorem word_agrees (hsource : source.toList = front ++ c :: cs) (hc : isWordStart c = true)
    (h : (between (front ++ [c]) cs p.right).ahead.length < n) :
    Agrees (word source (String.utf8Len front) ⟨between (front ++ [c]) cs p.right, h⟩)
      front p c cs (firstWord c cs) := by
  have hfeed : c ≠ '\n' := isWordChar_ne_feed (isWordChar_of_isWordStart hc)
  obtain ⟨h', hskip⟩ := skip_after (p := p) hfeed (fun _ => isWordChar_ne_feed) h
  have htext : source.toList
      = front ++ (c :: cs.takeWhile isWordChar) ++ cs.dropWhile isWordChar := by
    rw [hsource, List.append_assoc, List.cons_append, List.takeWhile_append_dropWhile]
  have hline : (p.after (c :: cs.takeWhile isWordChar)).line = p.line := by
    refine Position.line_after_of_ne (fun d hd => ?_) p
    rcases List.mem_cons.mp hd with rfl | hd
    · exact hfeed
    · exact isWordChar_ne_feed (List.mem_takeWhile_imp hd)
  rw [word, hskip]
  dsimp only
  rw [span_between htext, Walk.pure_bind, String.toList_ofList, firstWord]
  cases Reserved.lookup? (c :: cs.takeWhile isWordChar) with
  | some lexed =>
      dsimp only
      rw [Agrees, take_length_takeWhile, drop_length_takeWhile]
      exact ⟨h', rfl⟩
  | none =>
      dsimp only
      rw [place_between, hline]
      rfl

theorem closeString_nil {text : List Char} {line : UInt32}
    (hsource : source.toList = front ++ text)
    (h : (between (front ++ text) [] p).ahead.length < n) :
    closeString source (String.utf8Len front) line ⟨between (front ++ text) [] p, h⟩
      = Walk.stop (.error (.unterminatedString (String.ofList text) line)) := by
  have hsize : source.utf8ByteSize = String.utf8Len (front ++ text) := by
    rw [← String.utf8Len_toList, hsource]
  have hslice := slice_of_append front text [] (hsource.trans (List.append_nil _).symm)
  show (slice source _ source.utf8ByteSize >>= _) = _
  rw [hsize, hslice, Walk.pure_bind]

theorem closeString_cons {body rest : List Char} {line : UInt32}
    (hsource : source.toList = front ++ '"' :: (body ++ '"' :: rest))
    (h : (between (front ++ '"' :: body) ('"' :: rest) p).ahead.length < n) :
    ∃ h', closeString source (String.utf8Len front) line
        ⟨between (front ++ '"' :: body) ('"' :: rest) p, h⟩
      = pure (some (.string, String.ofList body),
          ⟨between (front ++ '"' :: body ++ ['"']) rest p.right, h'⟩) := by
  obtain ⟨h', htake⟩ := take?_between (fun _ => true) (front ++ '"' :: body) rest p rfl
  have hstart : String.utf8Len front + 1 = String.utf8Len (front ++ ['"']) := by
    rw [String.utf8Len_append]
    rfl
  have hslice := slice_of_append (front ++ ['"']) body ('"' :: rest)
    (by rw [hsource, List.append_assoc, List.append_assoc]; rfl)
  rw [List.append_assoc, List.singleton_append] at hslice
  refine ⟨Nat.lt_trans h' h, ?_⟩
  rw [closeString, htake]
  dsimp only
  rw [hstart, hslice, Walk.pure_bind]
  rfl

theorem string_agrees (hsource : source.toList = front ++ '"' :: cs) (hroom : Room p ('"' :: cs))
    (h : (between (front ++ ['"']) cs p.right).ahead.length < n) :
    Agrees (string source (String.utf8Len front) ⟨between (front ++ ['"']) cs p.right, h⟩)
      front p '"' cs (firstString cs) := by
  have hplace (text : List Char) : p.after ('"' :: text) = p.right.after text := by
    rw [Position.after_cons, Position.next_of_ne (by decide)]
  have hroom' : Room p.right cs := by
    have hafter : Room (p.after ['"']) cs := hroom.after ['"']
    rwa [hplace, Position.after_nil] at hafter
  have hskip := skipBody_between hroom' h
  have hcs : cs.takeWhile isBody ++ cs.dropWhile isBody = cs := List.takeWhile_append_dropWhile
  have hquote : ∀ d ∈ (cs.dropWhile isBody).head?, isBody d = false :=
    not_head?_dropWhile isBody cs
  have hfirst : firstString cs = if (cs.takeWhile isBody).length < cs.length
      then .ok (.token .string (String.ofList (cs.takeWhile isBody)),
        (cs.takeWhile isBody).length + 1)
      else .error (.unterminatedString (String.ofList ('"' :: cs))) := rfl
  rw [List.append_assoc, List.singleton_append] at hskip
  generalize cs.takeWhile isBody = body at hskip hcs hfirst
  generalize cs.dropWhile isBody = rest at hskip hcs hquote
  obtain ⟨h', hskip⟩ := hskip
  rw [string, hskip, Walk.pure_bind, hfirst]
  cases rest with
  | nil =>
      obtain rfl : body = cs := (List.append_nil body).symm.trans hcs
      rw [if_neg (Nat.lt_irrefl _), closeString_nil hsource]
      rfl
  | cons d rest =>
      obtain rfl : d = '"' := by simpa using hquote d rfl
      subst hcs
      have hlt : body.length < (body ++ '"' :: rest).length := by
        rw [List.length_append, List.length_cons]
        omega
      obtain ⟨h'', hclose⟩ := closeString_cons hsource h'
      rw [if_pos hlt, hclose, Agrees, List.take_length_add_append, List.drop_length_add_append,
        hplace]
      have hend : p.right.after (body ++ ['"']) = (p.right.after body).right := by
        rw [Position.after_append, Position.after_cons, Position.next_of_ne (by decide)]
        rfl
      show Finds _ p _
        (between (front ++ '"' :: (body ++ ['"'])) rest (p.right.after (body ++ ['"'])))
      rw [hend, ← List.cons_append, ← List.append_assoc]
      exact ⟨h'', rfl⟩

theorem finds_one (hc : c ≠ '\n') (h : (between (front ++ [c]) cs p.right).ahead.length < n)
    (item : Item) :
    Finds ⟨dropped p item, .ok (lexed item, ⟨between (front ++ [c]) cs p.right, h⟩)⟩ p item
      (between (front ++ c :: cs.take 0) (cs.drop 0) (p.after (c :: cs.take 0))) := by
  rw [Position.after_cons, Position.next_of_ne hc]
  exact ⟨h, rfl⟩

theorem double?_ne_feed {d : Char} {kind : Kind} (h : double? c d = some kind) : d ≠ '\n' := by
  rintro rfl
  have hnone : double? c '\n' = none := by
    unfold double?
    split <;> first | rfl | contradiction
  exact nomatch hnone.symm.trans h

theorem double_agrees {kind : Kind} (hsource : source.toList = front ++ c :: cs) (hfeed : c ≠ '\n')
    (hdouble : cs.head?.bind (double? c) = some kind)
    (h : (between (front ++ [c]) cs p.right).ahead.length < n) :
    ∃ r, chase? c ⟨between (front ++ [c]) cs p.right, h⟩ = some (kind, r) ∧
      Agrees (r.1.span source (String.utf8Len front) >>= fun text => pure (some (kind, text), r))
        front p c cs (.ok (.token kind (String.ofList (c :: cs.take 1)), 1)) := by
  obtain ⟨d, hd, hkind⟩ := Option.bind_eq_some_iff.mp hdouble
  obtain ⟨cs, rfl⟩ : ∃ cs', cs = d :: cs' := by
    cases cs with
    | nil => cases hd
    | cons d' cs => exact ⟨cs, by rw [Option.some.inj hd]⟩
  obtain ⟨h', hchase⟩ := chase?_of_double? hkind h
  refine ⟨_, hchase, ?_⟩
  have hfront : front ++ [c] ++ [d] = front ++ [c, d] := List.append_assoc _ _ _
  have htext : source.toList = front ++ [c, d] ++ cs := by
    rw [hsource, ← hfront, List.append_assoc, List.append_assoc]
    rfl
  have hspan : (between (front ++ [c] ++ [d]) cs p.right.right).span source
      (String.utf8Len front) = pure (String.ofList [c, d]) := by
    rw [hfront]
    exact span_between htext
  have hplace : p.after [c, d] = p.right.right := by
    rw [Position.after_cons, Position.after_cons, Position.next_of_ne hfeed,
      Position.next_of_ne (double?_ne_feed hkind), Position.after_nil]
  rw [hspan, Walk.pure_bind]
  show Finds _ p _ (between (front ++ [c, d]) cs (p.after [c, d]))
  rw [hplace, ← hfront]
  exact ⟨h', rfl⟩

theorem lex_agrees (hsource : source.toList = front ++ c :: cs) (hroom : Room p (c :: cs))
    (h : (between (front ++ [c]) cs p.right).ahead.length < n) :
    Agrees (lex source (String.utf8Len front) c p.column ⟨between (front ++ [c]) cs p.right, h⟩)
      front p c cs (first c cs) := by
  by_cases hfeed : c = '\n'
  · subst hfeed
    rw [lex, if_pos rfl]
    dsimp only
    rw [place_between, endLine_eq hroom]
    exact ⟨h, rfl⟩
  rw [lex, if_neg hfeed, first]
  split
  next => exact finds_one hfeed h .blank
  next hblank =>
    cases hdouble : cs.head?.bind (double? c) with
    | some kind =>
        obtain ⟨r, hchase, hagrees⟩ := double_agrees hsource hfeed hdouble h
        rw [hchase]
        exact hagrees
    | none =>
        rw [chase?_eq_none hdouble h]
        dsimp only
        rw [firstOther]
        cases hsingle : single? c with
        | some kind =>
            have hspan : (between (front ++ [c]) cs p.right).span source (String.utf8Len front)
                = pure (String.ofList [c]) :=
              span_between (by rw [hsource, List.append_assoc]; rfl)
            dsimp only
            rw [hspan, Walk.pure_bind, ← String.singleton_eq_ofList]
            exact finds_one hfeed h (.token kind (String.singleton c))
        | none =>
            dsimp only
            split
            next hstray => exact finds_one hfeed h (.stray c)
            next =>
              split
              next hquote =>
                subst hquote
                exact string_agrees hsource hroom h
              next =>
                split
                next hdigit => exact number_agrees hsource hdigit h
                next =>
                  split
                  next hstart => exact word_agrees hsource hstart h
                  next => rfl

end Short

/-! ## The whole text -/

/-- Between a text in front and the rest, a reader meets what the cut of the rest gives, and ends as
that does. -/
theorem scan_between (source : String) (cs : List Char) :
    ∀ ⦃front p⦄, source.toList = front ++ cs → Room p cs →
      scan source (between front cs p)
        = ⟨(Trace.ofCut p (cut cs)).events, unbroken Breach (Trace.ofCut p (cut cs)).outcome⟩ := by
  fun_induction cut cs with
  | case1 =>
      intro front p _ _
      rw [scan]
      rfl
  | case2 c cs fault hfirst =>
      intro front p hsource hroom
      obtain ⟨h, htake⟩ := take?_between (fun _ => true) front (c := c) cs p rfl
      have hlex := Short.lex_agrees hsource hroom h
      rw [hfirst] at hlex
      rw [scan, htake]
      dsimp only
      rw [place_between, show Short.lex _ _ _ _ _ = _ from hlex]
      rfl
  | case3 c cs item k hfirst rest =>
      rename_i ih
      intro front p hsource hroom
      obtain ⟨h, htake⟩ := take?_between (fun _ => true) front (c := c) cs p rfl
      have hlex := Short.lex_agrees hsource hroom h
      rw [hfirst] at hlex
      obtain ⟨h', hlex⟩ := hlex
      have hcs : c :: cs = (c :: cs.take k) ++ cs.drop k := by
        rw [List.cons_append, List.take_append_drop]
      have hmore := @ih (front ++ c :: cs.take k) (p.after (c :: cs.take k))
        (by rw [hsource, List.append_assoc, ← hcs]) (Room.after _ (hcs ▸ hroom))
      rw [scan, htake]
      dsimp only
      rw [place_between, hlex, Walk.bind_of_ok rfl]
      cases item with
      | token kind lexeme =>
          dsimp only [lexed]
          rw [hmore]
          rfl
      | stray d =>
          dsimp only [lexed]
          rw [hmore]
          rfl
      | blank =>
          dsimp only [lexed]
          rw [hmore]
          rfl

/-- Short of 2 ^ 32 - 1 line feeds, a reader meets what a scan of the text meets, and ends as that
does. -/
theorem scan_eq (source : String) (h : source.toList.count '\n' < 2 ^ 32 - 1) :
    scan source (ofSource source) = ⟨(Trace.ofSource source).events,
      unbroken Breach (Trace.ofSource source).outcome⟩ := by
  have hroom : Room .start source.toList := by
    show 1 + _ < _
    omega
  show scan source (between [] source.toList .start) = _
  exact scan_between source source.toList rfl hroom

end

end Reader

end Token

end LineCalc
