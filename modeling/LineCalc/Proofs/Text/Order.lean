/-
# `LineCalc.Proofs.Text.Order` — the order of texts

Texts are ordered like words in a dictionary: by the first character in which they differ, and a
text that another one goes on from comes before it.  Characters are ordered by their code
points, so the order is that of the sequences of code points (`codePoints_strictMono`).

It is also the order of the encoded texts, byte by byte (`bytes_strictMono`).  The encoding of a
character is a first byte, which says how many bytes follow, and these with six bits of the code
point each.  Of two characters, the one of the smaller code point has the smaller first byte if
fewer bytes follow it; if equally many do, both encodings are digits of the same number of
places.  Either way the encodings differ at a place that both have (`ForksBelow`), and so what
comes after the characters does not matter.
-/
import Mathlib
import LineCalc.Proofs.Text.Lines

namespace LineCalc.Text

/-! ## Texts as sequences of numbers -/

def codePoints (text : String) : List ℕ := text.toList.map Char.toNat

def bytes (text : String) : List ℕ := text.toUTF8.data.toList.map UInt8.toNat

theorem toNat_lt_toNat {c d : Char} (h : c < d) : c.toNat < d.toNat := h

theorem codePoints_strictMono : StrictMono codePoints := by
  intro a b h
  exact List.map_lt (fun _ _ => toNat_lt_toNat) (String.lt_iff_toList_lt.mp h)

/-! ## Lists that differ at a place -/

/-- `ForksBelow xs ys`: the lists `xs` and `ys` differ at a place that both have, and at the first
such place `xs` has the smaller number. -/
inductive ForksBelow : List ℕ → List ℕ → Prop
  | head {x y : ℕ} {xs ys : List ℕ} : x < y → ForksBelow (x :: xs) (y :: ys)
  | tail {x : ℕ} {xs ys : List ℕ} : ForksBelow xs ys → ForksBelow (x :: xs) (x :: ys)

/-- What comes after a place where two lists differ does not matter for their order. -/
theorem ForksBelow.append_lt {xs ys : List ℕ} (h : ForksBelow xs ys) (us vs : List ℕ) :
    xs ++ us < ys ++ vs := by
  induction h with
  | head h => exact List.cons_lt_cons_iff.mpr (Or.inl h)
  | tail _ ih => exact List.cons_lt_cons_iff.mpr (Or.inr ⟨rfl, ih⟩)

/-! ## Characters -/

/-- How many bytes follow the first one in the encoding of a code point. -/
def followers (v : ℕ) : ℕ :=
  if v ≤ 0x7f then 0 else if v ≤ 0x7ff then 1 else if v ≤ 0xffff then 2 else 3

/-- The least first byte that so many bytes follow. -/
def marker : ℕ → ℕ
  | 0 => 0
  | 1 => 0xc0
  | 2 => 0xe0
  | _ => 0xf0

/-- The last `k` digits of a number in base sixty-four, each as a byte that follows another. -/
def digitBytes (v : ℕ) : ℕ → List ℕ
  | 0 => []
  | k + 1 => (v / 64 ^ k % 64 + 0x80) :: digitBytes v k

def leadByte (v : ℕ) : ℕ := v / 64 ^ followers v + marker (followers v)

/-- The bytes of a code point: the first one, and the digits that it leaves over. -/
def encoding (v : ℕ) : List ℕ := leadByte v :: digitBytes v (followers v)

theorem encoding_eq {v k : ℕ} (h : followers v = k) :
    encoding v = (v / 64 ^ k + marker k) :: digitBytes v k := by
  subst h
  rfl

theorem map_utf8EncodeChar (c : Char) :
    (String.utf8EncodeChar c).map UInt8.toNat = encoding c.toNat := by
  have hvalid : c.val.toNat < 0x110000 := by
    rcases c.valid with h | ⟨-, h⟩
    · exact h.trans (by decide)
    · exact h
  show _ = encoding c.val.toNat
  fun_cases String.utf8EncodeChar c
  case' case1 v hone => rw [encoding_eq (if_pos hone)]
  case' case2 v hone htwo => rw [encoding_eq ((if_neg hone).trans (if_pos htwo))]
  case' case3 v hone htwo hthree =>
    rw [encoding_eq ((if_neg hone).trans ((if_neg htwo).trans (if_pos hthree)))]
  case' case4 v hone htwo hthree =>
    rw [encoding_eq ((if_neg hone).trans ((if_neg htwo).trans (if_neg hthree)))]
  all_goals
    simp only [marker, digitBytes, List.map_cons, List.map_nil, UInt8.toNat_ofNat',
      List.cons.injEq, and_true]
    omega

/-- Of two numbers that agree in all digits but the last ones, the smaller one has the smaller last
digits. -/
theorem digitBytes_forksBelow {v w : ℕ} (h : v < w) {k : ℕ} (hlead : v / 64 ^ k = w / 64 ^ k) :
    ForksBelow (digitBytes v k) (digitBytes w k) := by
  induction k with
  | zero =>
      rw [pow_zero, Nat.div_one, Nat.div_one] at hlead
      exact absurd hlead h.ne
  | succ k ih =>
      have hle : v / 64 ^ k ≤ w / 64 ^ k := Nat.div_le_div_right h.le
      rw [pow_succ, ← Nat.div_div_eq_div_mul, ← Nat.div_div_eq_div_mul] at hlead
      -- the digits in front agree, so the next one is smaller if the quotient is
      rcases hle.lt_or_eq with hlt | heq
      · exact .head (by omega)
      · rw [digitBytes, digitBytes, heq]
        exact .tail (ih heq)

theorem followers_mono : Monotone followers := by
  intro v w h
  unfold followers
  split_ifs <;> omega

theorem leadByte_lt {v w : ℕ} (h : followers v < followers w) : leadByte v < leadByte w := by
  unfold leadByte followers at *
  split_ifs at * <;> simp only [marker] <;> omega

/-- The encodings of two code points differ at a place that both have, and there as the code
points do. -/
theorem encoding_forksBelow {v w : ℕ} (h : v < w) : ForksBelow (encoding v) (encoding w) := by
  rcases (followers_mono h.le).lt_or_eq with hfewer | heq
  · exact .head (leadByte_lt hfewer)
  · rw [encoding_eq heq, encoding_eq rfl]
    have hle : v / 64 ^ followers w ≤ w / 64 ^ followers w := Nat.div_le_div_right h.le
    rcases hle.lt_or_eq with hlead | hlead
    · exact .head (Nat.add_lt_add_right hlead _)
    · rw [hlead]
      exact .tail (digitBytes_forksBelow h hlead)

/-! ## Encoded texts -/

theorem map_encode_cons (c : Char) (cs : List Char) :
    (encode (c :: cs)).map UInt8.toNat = encoding c.toNat ++ (encode cs).map UInt8.toNat := by
  rw [encode_cons, List.map_append, map_utf8EncodeChar]

/-- A text that another one goes on from is encoded by a part of its encoding, and otherwise the
first characters that differ decide. -/
theorem map_encode_lt {cs ds : List Char} (h : cs < ds) :
    (encode cs).map UInt8.toNat < (encode ds).map UInt8.toNat := by
  induction h with
  | nil =>
      rw [map_encode_cons]
      exact List.nil_lt_cons _ _
  | rel h =>
      rw [map_encode_cons, map_encode_cons]
      exact (encoding_forksBelow (toNat_lt_toNat h)).append_lt _ _
  | cons h ih =>
      rw [map_encode_cons, map_encode_cons]
      exact List.Lex.append_left _ ih _

theorem bytes_strictMono : StrictMono bytes := by
  intro a b h
  rw [bytes, bytes, encode_toList, encode_toList]
  exact map_encode_lt (String.lt_iff_toList_lt.mp h)

end LineCalc.Text
