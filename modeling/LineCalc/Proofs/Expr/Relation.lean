/-
# `LineCalc.Proofs.Expr.Relation` — what the relations decide

A relation has a meaning in every linear order (`Relation.Holds`), and a strictly monotone map does
not change it (`Relation.holds_iff_of_strictMono`).  So it makes no difference whether two strings
are related as texts, by their code points or by their bytes in UTF-8: all three maps between
these keep the order.

Which of the six relations hold between two members of an order is fixed by which one of less,
equal and greater does; and exchanging the two is made up for by the mirrored relation.
-/
import Mathlib
import LineCalc.Expr.Eval
import LineCalc.Proofs.Text.Order

namespace LineCalc

namespace Relation

/-! ## Relations in a linear order -/

section
variable {α β : Type} [LinearOrder α] [LinearOrder β]

/-- `r.Holds a b`: the relation `r` holds between `a` and `b`. -/
def Holds : Relation → α → α → Prop
  | equal, a, b => a = b
  | notEqual, a, b => a ≠ b
  | greater, a, b => a > b
  | greaterEqual, a, b => a ≥ b
  | less, a, b => a < b
  | lessEqual, a, b => a ≤ b

instance (r : Relation) (a b : α) : Decidable (r.Holds a b) :=
  match r with
  | equal => inferInstanceAs (Decidable (a = b))
  | notEqual => inferInstanceAs (Decidable (a ≠ b))
  | greater => inferInstanceAs (Decidable (a > b))
  | greaterEqual => inferInstanceAs (Decidable (a ≥ b))
  | less => inferInstanceAs (Decidable (a < b))
  | lessEqual => inferInstanceAs (Decidable (a ≤ b))

/-- The relation of the second to the first, if `r` is that of the first to the second. -/
def mirror : Relation → Relation
  | equal => equal
  | notEqual => notEqual
  | greater => less
  | greaterEqual => lessEqual
  | less => greater
  | lessEqual => greaterEqual

theorem holds_mirror_iff (r : Relation) (a b : α) : r.mirror.Holds b a ↔ r.Holds a b := by
  cases r with
  | equal => exact eq_comm
  | notEqual => exact ne_comm
  | greater | greaterEqual | less | lessEqual => exact Iff.rfl

theorem holds_iff_of_strictMono {f : α → β} (hf : StrictMono f) (r : Relation) (a b : α) :
    r.Holds (f a) (f b) ↔ r.Holds a b := by
  cases r with
  | equal => exact hf.injective.eq_iff
  | notEqual => exact hf.injective.ne_iff
  | greater | less => exact hf.lt_iff_lt
  | greaterEqual | lessEqual => exact hf.le_iff_le

/-- Between two different members, no relation gives in both orders what it gives between a member
and itself. -/
theorem not_holds_iff_self {a b : α} (hne : a ≠ b) (c : β) (r : Relation) :
    ¬ ((r.Holds a b ↔ r.Holds c c) ∧ (r.Holds b a ↔ r.Holds c c)) := by
  rintro ⟨hab, hba⟩
  cases r with
  | equal => exact hne (hab.mpr rfl)
  | notEqual => exact hab.mp hne rfl
  | greater =>
      rcases hne.lt_or_gt with hlt | hgt
      · exact lt_irrefl c (hba.mp hlt)
      · exact lt_irrefl c (hab.mp hgt)
  | less =>
      rcases hne.lt_or_gt with hlt | hgt
      · exact lt_irrefl c (hab.mp hlt)
      · exact lt_irrefl c (hba.mp hgt)
  | greaterEqual => exact hne (le_antisymm (hba.mpr le_rfl) (hab.mpr le_rfl))
  | lessEqual => exact hne (le_antisymm (hab.mpr le_rfl) (hba.mpr le_rfl))

/-- The outcomes of a comparison: less, equal and greater. -/
def IsOutcome (r : Relation) : Prop := r = less ∨ r = equal ∨ r = greater

theorem existsUnique_isOutcome (a b : α) : ∃! r : Relation, r.IsOutcome ∧ r.Holds a b := by
  rcases lt_trichotomy a b with h | h | h
  · refine ⟨less, ⟨Or.inl rfl, h⟩, ?_⟩
    rintro r ⟨rfl | rfl | rfl, hr⟩
    · rfl
    · exact absurd hr h.ne
    · exact absurd hr h.not_gt
  · refine ⟨equal, ⟨Or.inr (Or.inl rfl), h⟩, ?_⟩
    rintro r ⟨rfl | rfl | rfl, hr⟩
    · exact absurd h hr.ne
    · rfl
    · exact absurd h hr.ne'
  · refine ⟨greater, ⟨Or.inr (Or.inr rfl), h⟩, ?_⟩
    rintro r ⟨rfl | rfl | rfl, hr⟩
    · exact absurd hr h.not_gt
    · exact absurd hr h.ne'
    · rfl

end

/-! ## Strings -/

theorem holdsString_eq (r : Relation) (a b : String) :
    r.holdsString a b = decide (r.Holds a b) := by
  cases r with
  | equal | greater | less => rfl
  | notEqual => exact decide_not.symm
  | greaterEqual => exact decide_not.symm.trans (decide_eq_decide.mpr not_lt)
  | lessEqual => exact decide_not.symm.trans (decide_eq_decide.mpr not_lt)

end Relation

namespace BinaryOp

theorem relation_strings (r : Relation) (a b : String) :
    (relate r).apply (.string a) (.string b) = .ok (.bool (decide (r.Holds a b))) := by
  rw [← r.holdsString_eq]
  rfl

theorem relation_strings_eq_true_iff {r : Relation} {a b : String} :
    (relate r).apply (.string a) (.string b) = .ok (.bool true) ↔ r.Holds a b := by
  rw [relation_strings, Except.ok.injEq, Value.bool.injEq, decide_eq_true_eq]

end BinaryOp

open Text (codePoints bytes codePoints_strictMono bytes_strictMono)

/-- The relations decide between two strings as they do between the sequences of their code points,
which are ordered lexicographically.  They would decide the same between the bytes of the strings.
Exactly one of less, equal and greater is true, and exchanging the strings is the same as mirroring
the relation. -/
theorem strings_related (a b : String) :
    (∀ r : Relation, (BinaryOp.relate r).apply (.string a) (.string b)
      = .ok (.bool (decide (r.Holds (codePoints a) (codePoints b))))) ∧
    (codePoints a = codePoints b ↔ a = b) ∧
    (∀ r : Relation, r.Holds (codePoints a) (codePoints b) ↔ r.Holds (bytes a) (bytes b)) ∧
    (∃! r : Relation, r.IsOutcome ∧
      (BinaryOp.relate r).apply (.string a) (.string b) = .ok (.bool true)) ∧
    ∀ r : Relation, (BinaryOp.relate r.mirror).apply (.string b) (.string a)
      = (BinaryOp.relate r).apply (.string a) (.string b) := by
  have hpoints (r : Relation) := r.holds_iff_of_strictMono codePoints_strictMono a b
  have hbytes (r : Relation) := r.holds_iff_of_strictMono bytes_strictMono a b
  refine ⟨fun r => ?_, codePoints_strictMono.injective.eq_iff, fun r => ?_, ?_, fun r => ?_⟩
  · rw [BinaryOp.relation_strings, decide_eq_decide.mpr (hpoints r)]
  · exact (hpoints r).trans (hbytes r).symm
  · simp only [BinaryOp.relation_strings_eq_true_iff]
    exact Relation.existsUnique_isOutcome a b
  · rw [BinaryOp.relation_strings, BinaryOp.relation_strings,
      decide_eq_decide.mpr (r.holds_mirror_iff a b)]

/-- The last character of three bytes comes before those of four. -/
example : Relation.less.holdsString "\uffff" "😀" = true := by decide

end LineCalc
