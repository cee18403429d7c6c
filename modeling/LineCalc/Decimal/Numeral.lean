/-
# `LineCalc.Decimal.Numeral` — numbers read from text

The grammar of whole numbers is an optional sign and at least one digit.  That of
doubles is an optional sign and then either a word for infinity or for no number, or
digits with at most one point, at least one digit on either side of it, and an
optional exponent.  Nothing else is read: no blanks and no separators.
-/
import LineCalc.Decimal
import LineCalc.Double

namespace LineCalc.Decimal

/-- A text without its sign, and whether that was a minus sign. -/
def splitSign : List Char → Bool × List Char
  | '+' :: cs => (false, cs)
  | '-' :: cs => (true, cs)
  | cs => (false, cs)

/-- The value of a text of at least one digit and nothing else. -/
def natural? (cs : List Char) : Option Nat :=
  if cs ≠ [] ∧ cs.all Char.isDigit then some (value cs) else none

/-- The value of a text of digits with an optional sign. -/
def integer? (cs : List Char) : Option Int :=
  let (minus, ds) := splitSign cs
  (natural? ds).map (Double.signed minus)

/-- The whole number of 64 bits that a text spells. -/
def int64? (text : String) : Option Int64 :=
  match integer? text.toList with
  | some n =>
      if Int64.minValue.toInt ≤ n ∧ n ≤ Int64.maxValue.toInt then some (Int64.ofInt n) else none
  | none => none

/-- The power of ten at the end of a decimal; the empty text is the power zero. -/
def exponent? : List Char → Option Int
  | [] => some 0
  | c :: cs => if c = 'e' ∨ c = 'E' then integer? cs else none

/-- The digits after a point, if there is one, and what follows them. -/
def splitFraction : List Char → List Char × List Char
  | '.' :: cs => (cs.takeWhile Char.isDigit, cs.dropWhile Char.isDigit)
  | cs => ([], cs)

/-- An unsigned decimal, as `m * 10 ^ k`. -/
def decimal? (cs : List Char) : Option (Nat × Int) :=
  let whole := cs.takeWhile Char.isDigit
  let (fraction, rest) := splitFraction (cs.dropWhile Char.isDigit)
  if whole.isEmpty && fraction.isEmpty then none
  else (exponent? rest).map fun k => (value (whole ++ fraction), k - fraction.length)

/-- The double nearest to `m * 10 ^ k`. -/
def nearestDouble (m : Nat) (k : Int) : Float := Float.ofScientific m (k < 0) k.natAbs

def infinity : Float := Float.ofBits 0x7ff0000000000000

def noNumber : Float := Float.ofBits 0x7ff8000000000000

/-- The double without sign that a text spells. -/
def unsignedDouble? (cs : List Char) : Option Float :=
  match String.ofList (cs.map Char.toLower) with
  | "inf" | "infinity" => some infinity
  | "nan" => some noNumber
  | _ => (decimal? cs).map fun (m, k) => nearestDouble m k

/-- The double that a text spells. -/
def double? (text : String) : Option Float :=
  let (minus, cs) := splitSign text.toList
  (unsignedDouble? cs).map fun x => if minus then -x else x

end LineCalc.Decimal
