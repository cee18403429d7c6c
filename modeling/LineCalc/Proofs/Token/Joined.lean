/-
# `LineCalc.Proofs.Token.Joined` — two texts joined at a line feed

A line feed outside a string is a seam, and nothing is carried over it but the count of
lines.  So the tokens of two texts with a line feed between them are those of the first,
without the end marker, and those of the second as many lines further down as the first
text takes (`Position.Below`).  An error of the second text moves down in the same way,
and an error of the first stays what it is, unless it is a string that is still open there
(`scan_append_line`).
-/
import LineCalc.Proofs.Token.Seam
import LineCalc.Proofs.Token.Places

namespace LineCalc

/-! ## Further down -/

/-- The place `q` is `k` lines below the place `p`, in the same column. -/
structure Position.Below (k : Nat) (p q : Position) : Prop where
  line_eq : q.line.toNat = p.line.toNat + k
  column_eq : q.column = p.column

structure Token.Below (k : Nat) (t u : Token) : Prop where
  kind_eq : u.kind = t.kind
  lexeme_eq : u.lexeme = t.lexeme
  position : t.position.Below k u.position

/-- `e.Below k e'`: the error `e'` is the error `e`, `k` lines further down. -/
inductive ScanError.Below (k : Nat) : ScanError → ScanError → Prop
  | unterminatedString {text : String} {line line' : UInt32} : line'.toNat = line.toNat + k →
      Below k (.unterminatedString text line) (.unterminatedString text line')
  | unknownCharacter {c : Char} {place place' : Position} : place.Below k place' →
      Below k (.unknownCharacter c place) (.unknownCharacter c place')
  | unknownIdentifier {word : String} {line line' : UInt32} : line'.toNat = line.toNat + k →
      Below k (.unknownIdentifier word line) (.unknownIdentifier word line')

namespace Position

variable {k : Nat} {p q : Position} {cs : List Char}

theorem column_after_congr (h : q.column = p.column) (cs : List Char) :
    (q.after cs).column = (p.after cs).column := by
  induction cs generalizing p q with
  | nil => exact h
  | cons c cs ih =>
      refine ih ?_
      by_cases hc : c = '\n'
      · rw [hc, next_feed, next_feed]
      · rw [next, next, if_neg hc, if_neg hc, h]

/-- What is below stays below behind the same text, as long as the lines can be counted. -/
theorem Below.after (h : p.Below k q) (hlines : q.line.toNat + cs.count '\n' < 2 ^ 32) :
    (p.after cs).Below k (q.after cs) := by
  have hline := h.line_eq
  refine ⟨?_, column_after_congr h.column_eq cs⟩
  rw [line_after_of_lt hlines, line_after_of_lt (by omega)]
  omega

theorem below_start (h : cs.count '\n' < 2 ^ 32 - 2) :
    start.Below (1 + cs.count '\n') (start.after (cs ++ ['\n'])) := by
  have hfeeds : (cs ++ ['\n']).count '\n' = cs.count '\n' + 1 := by
    rw [List.count_append, List.count_singleton_self]
  have hone : start.line.toNat = 1 := rfl
  refine ⟨?_, ?_⟩
  · rw [line_after_of_lt (by omega), hfeeds, Nat.add_comm 1]
  · rw [after_concat, next_feed]
    rfl

end Position

namespace Token

section
variable {k : Nat} {p q : Position} {as bs rest : List Char} {pieces pieces' : List Piece}

theorem tokensFrom_below (h : p.Below k q)
    (hlines : q.line.toNat + (pieces.flatMap Piece.text).count '\n' < 2 ^ 32) :
    List.Forall₂ (Token.Below k) (tokensFrom p pieces) (tokensFrom q pieces) := by
  induction pieces generalizing p q with
  | nil => exact .cons ⟨rfl, rfl, h⟩ .nil
  | cons piece pieces ih =>
      obtain ⟨text, item⟩ := piece
      have hlines : q.line.toNat + (text ++ pieces.flatMap Piece.text).count '\n' < 2 ^ 32 := hlines
      rw [List.count_append] at hlines
      have htext : q.line.toNat + text.count '\n' < 2 ^ 32 := by omega
      have hrest := ih (h.after htext) (by rw [Position.line_after_of_lt htext]; omega)
      cases item with
      | token kind lexeme => exact .cons ⟨rfl, rfl, h⟩ hrest
      | stray c => exact hrest
      | blank => exact hrest

theorem Fault.locate_below (fault : Fault) (h : p.Below k q) :
    (fault.locate p).Below k (fault.locate q) := by
  cases fault with
  | unterminatedString text => exact .unterminatedString h.line_eq
  | unknownCharacter c => exact .unknownCharacter h
  | unknownWord word => exact .unknownIdentifier h.line_eq

/-! ## Across the line feed -/

/-- The piece that a line feed outside strings is. -/
def feed : Piece := ⟨['\n'], .blank⟩

/-- A text that is cut to its end, a line feed, and what a second text is cut into. -/
theorem Cuts.append_line (h : Cuts as pieces []) (h' : Cuts bs pieces' rest) :
    Cuts (as ++ '\n' :: bs) (pieces ++ [feed] ++ pieces') rest := by
  have hfront := h.seam (.blank (by rfl : isBlank '\n' = true) [] bs)
  have has := h.eq_append
  rw [List.append_nil] at has
  rw [← has] at hfront
  rw [List.append_assoc]
  exact hfront.append (.piece (.blank rfl) h')

theorem placeAfter_line (h : Cuts as pieces []) :
    placeAfter .start (pieces ++ [feed]) = Position.start.after (as ++ ['\n']) := by
  have has := h.eq_append
  rw [List.append_nil] at has
  rw [placeAfter_eq, List.flatMap_append, ← has]
  rfl

theorem tokensFrom_append_line (p : Position) (pieces pieces' : List Piece) :
    tokensFrom p (pieces ++ [feed] ++ pieces') = (events p pieces).filterMap Event.token? ++
      tokensFrom (placeAfter p (pieces ++ [feed])) pieces' := by
  rw [tokensFrom_append, events_append, List.filterMap_append]
  exact congrArg (· ++ _) (List.append_nil _)

theorem Cuts.count_le (h : Cuts bs pieces rest) (c : Char) :
    (pieces.flatMap Piece.text).count c ≤ bs.count c := by
  rw [h.eq_append, List.count_append]
  exact Nat.le_add_right _ _

theorem takeWhile_append_stop {p : Char → Bool} (as : List Char) (h : ∀ d ∈ bs.head?, p d = false) :
    (as ++ bs).takeWhile p = as.takeWhile p := by
  conv => lhs; rw [← List.takeWhile_append_dropWhile (p := p) (l := as), List.append_assoc]
  refine takeWhile_append_of_stop (fun c hc => List.mem_takeWhile_imp hc) ?_
  have hstop := not_head?_dropWhile p as
  cases hdrop : as.dropWhile p with
  | nil => exact h
  | cons c cs =>
      rw [hdrop] at hstop
      exact hstop

theorem Fault.Blames.exists_cons {fault : Fault} (h : fault.Blames rest) :
    ∃ c cs, rest = c :: cs := by
  cases h <;> exact ⟨_, _, rfl⟩

/-- More text behind an error does not change it, unless it might close a string or make a word
longer. -/
theorem Fault.Blames.append {fault : Fault} (h : fault.Blames rest)
    (hstring : ∀ text, fault ≠ .unterminatedString text) {more : List Char}
    (hmore : ∀ d ∈ more.head?, isWordChar d = false) : fault.Blames (rest ++ more) := by
  cases h with
  | @unterminatedString body _ => exact absurd rfl (hstring _)
  | @unknownWord c cs hc hlookup =>
      have htake := takeWhile_append_stop cs hmore
      rw [← htake] at hlookup ⊢
      exact .unknownWord hc hlookup
  | unknownCharacter hc hdigit hword => exact .unknownCharacter hc hdigit hword

end

/-- Scanning goes over a line feed outside strings as if the second text stood alone, only further
down. -/
theorem scan_append_line (a b : String)
    (hlines : (a ++ "\n" ++ b).toList.count '\n' < 2 ^ 32 - 1) :
    (∀ body last, scan a = .ok (body ++ [last]) →
      match scan b with
      | .ok ts => ∃ us, scan (a ++ "\n" ++ b) = .ok (body ++ us) ∧
          List.Forall₂ (Token.Below (1 + a.toList.count '\n')) ts us
      | .error e => ∃ e', scan (a ++ "\n" ++ b) = .error e' ∧
          e.Below (1 + a.toList.count '\n') e') ∧
    ∀ e, scan a = .error e → (∀ text line, e ≠ .unterminatedString text line) →
      scan (a ++ "\n" ++ b) = .error e := by
  have hjoined : (a ++ "\n" ++ b).toList = a.toList ++ '\n' :: b.toList := by simp
  have hcount : a.toList.count '\n' + (b.toList.count '\n' + 1) < 2 ^ 32 - 1 := by
    rwa [hjoined, List.count_append, List.count_cons_self] at hlines
  constructor
  · intro body last ha
    obtain ⟨pieces, hcuts, hts⟩ := scan_eq_ok_iff.mp ha
    obtain ⟨rfl, -⟩ := List.append_inj' hts rfl
    -- `q` is the place where the second text begins
    obtain ⟨q, hq⟩ : ∃ q, q = placeAfter .start (pieces ++ [feed]) := ⟨_, rfl⟩
    have hbelow : Position.start.Below (1 + a.toList.count '\n') q := by
      rw [hq, placeAfter_line hcuts]
      exact Position.below_start (by omega)
    have hlines' : ∀ {pieces' : List Piece} {rest : List Char}, Cuts b.toList pieces' rest →
        q.line.toNat + (pieces'.flatMap Piece.text).count '\n' < 2 ^ 32 := by
      intro pieces' rest hcuts'
      have hle := hcuts'.count_le '\n'
      have hline := hbelow.line_eq
      have hone : Position.start.line.toNat = 1 := rfl
      omega
    cases hb : scan b with
    | ok ts =>
        obtain ⟨pieces', hcuts', rfl⟩ := scan_eq_ok_iff.mp hb
        refine ⟨_, scan_eq_ok_iff.mpr ⟨pieces ++ [feed] ++ pieces', ?_, ?_⟩,
          tokensFrom_below hbelow (hlines' hcuts')⟩
        · rw [hjoined]
          exact hcuts.append_line hcuts'
        · rw [tokensFrom_append_line, hq]
    | error e =>
        obtain ⟨pieces', rest, fault, hcuts', hblames, rfl⟩ := scan_eq_error_iff.mp hb
        refine ⟨_, scan_eq_error_iff.mpr ⟨pieces ++ [feed] ++ pieces', rest, fault, ?_, hblames,
          rfl⟩, fault.locate_below ?_⟩
        · rw [hjoined]
          exact hcuts.append_line hcuts'
        · rw [placeAfter_append, ← hq, placeAfter_eq, placeAfter_eq]
          exact hbelow.after (hlines' hcuts')
  · intro e ha hstring
    obtain ⟨pieces, rest, fault, hcuts, hblames, rfl⟩ := scan_eq_error_iff.mp ha
    have hblames' : fault.Blames (rest ++ '\n' :: b.toList) := by
      refine hblames.append (fun text htext => ?_) (fun d hd => ?_)
      · subst htext
        exact hstring _ _ rfl
      · obtain rfl := Option.some.inj hd
        rfl
    refine scan_eq_error_iff.mpr ⟨pieces, _, fault, ?_, hblames', rfl⟩
    rw [hjoined, hcuts.eq_append, List.append_assoc]
    refine hcuts.seam ?_
    obtain ⟨c, cs, rfl⟩ := hblames.exists_cons
    exact .cons c cs _

/-- A `<` and a `=` on the next line stay apart, and what follows a string over two lines stands one
line further down. -/
theorem scan_append_line_of_less :
    let a := "1 <"
    let b := "= \"é\n\" 2"
    let body : List Token := [⟨.integer, "1", .start⟩, ⟨.less, "<", ⟨1, 3⟩⟩]
    let ts : List Token := [⟨.equal, "=", .start⟩, ⟨.string, "é\n", ⟨1, 3⟩⟩, ⟨.integer, "2", ⟨2, 3⟩⟩,
      endAt ⟨2, 4⟩]
    (a ++ "\n" ++ b).toList.count '\n' < 2 ^ 32 - 1 ∧ scan a = .ok (body ++ [endAt ⟨1, 4⟩]) ∧
      scan b = .ok ts ∧ ∃ us, scan (a ++ "\n" ++ b) = .ok (body ++ us) ∧
        List.Forall₂ (Token.Below 1) ts us := by
  intro a b body ts
  have hlines : (a ++ "\n" ++ b).toList.count '\n' < 2 ^ 32 - 1 := by decide
  have ha : scan a = .ok (body ++ [endAt ⟨1, 4⟩]) := by decide +kernel
  have hb : scan b = .ok ts := by decide +kernel
  obtain ⟨hjoined, -⟩ := scan_append_line a b hlines
  have hus := hjoined body _ ha
  have hone : 1 + a.toList.count '\n' = 1 := by decide
  rw [hb, hone] at hus
  exact ⟨hlines, ha, hb, hus⟩

end Token

end LineCalc
