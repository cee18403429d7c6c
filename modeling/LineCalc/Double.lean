/-
# `LineCalc.Double` — double-precision numbers and whole numbers

A double is taken apart into a sign, a whole mantissa and a power of two
(`Double.parts`), and what this module computes from a double is computed from these
parts in exact arithmetic.  Whole numbers of 64 bits go to the nearest double, and a
double goes back by dropping its fraction and clamping to the range.
-/

namespace LineCalc.Double

/-- What a double stands for: nothing, an infinity, a zero, or a sign, a whole mantissa and a
power of two. -/
abbrev Parts := Float.Model.UnpackedFloat

def parts (x : Float) : Parts :=
  Float.Model.UnpackedFloat.unpack Float.Model.Format.binary64 x.toBits.toBitVec

def isMinus : Float.Model.UnpackedFloat.Sign → Bool
  | .negative => true
  | .positive => false

/-- `m * 2 ^ e` without its fraction. -/
def scale (m : Nat) : Int → Nat
  | .ofNat e => m <<< e
  | .negSucc e => m >>> (e + 1)

/-- The whole number with the given sign and magnitude. -/
def signed (minus : Bool) (n : Nat) : Int := if minus then -n else n

/-- The nearest whole number of 64 bits. -/
def clamp (n : Int) : Int64 :=
  if n < Int64.minValue.toInt then Int64.minValue
  else if Int64.maxValue.toInt < n then Int64.maxValue
  else Int64.ofInt n

/-- A double without its fraction, clamped to 64 bits; zero for a double that is no number. -/
def toInt64 (x : Float) : Int64 :=
  match parts x with
  | .notANumber => 0
  | .infinity s => if isMinus s then Int64.minValue else Int64.maxValue
  | .zero _ => 0
  | .finite s m e _ => clamp (signed (isMinus s) (scale m e))

/-- The double nearest to a whole number; of two that are equally near, the one with an even
mantissa. -/
def ofInt64 (n : Int64) : Float :=
  let magnitude := n.toInt.natAbs.toUInt64.toFloat
  if n < 0 then -magnitude else magnitude

def ofBool (b : Bool) : Float := if b then 1 else 0

end LineCalc.Double
