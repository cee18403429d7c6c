/-
# `LineCalc.Value` — values

A value is a double, a whole number of 64 bits, a string or a truth value.  All but
strings have a numeric projection, which is always a double.
-/
import LineCalc.Expr
import LineCalc.Double
import LineCalc.Decimal.Shortest

namespace LineCalc

/-- What an expression evaluates to.  Two values are equal (`==`) if they are of one sort and
hold the same; doubles are compared as numbers. -/
inductive Value where
  | float (x : Float)
  | int (n : Int64)
  | string (text : String)
  | bool (b : Bool)
deriving BEq, Repr, Inhabited

namespace Value

/-- The numeric projection: a truth value counts as one or zero, and a string has none. -/
def numeric : Value → Option Float
  | float x => some x
  | int n => some (Double.ofInt64 n)
  | bool b => some (Double.ofBool b)
  | string _ => none

/-- Doubles are written positionally from one ten-thousandth up to below ten to the sixteenth. -/
def floatLayout : Decimal.Layout := ⟨-4, 15⟩

/-- The least mantissa of a double that is not among the very smallest. -/
def leastNormalMantissa : Nat := 4503599627370496

/-- The power of two of the very smallest doubles. -/
def leastPower : Int := -1074

/-- The reals that round to the double `m * 2 ^ q`.  The least normal mantissa has its lower
neighbour nearer than its upper one, unless no power of two lies below. -/
def interval (m : Nat) (q : Int) : Decimal.Interval :=
  .ofBinary m q (m == leastNormalMantissa && decide (leastPower < q))

/-- The written form of a double: its shortest digits, with a minus sign also before zero. -/
def renderFloat (x : Float) : String :=
  match Double.parts x with
  | .notANumber => "NaN"
  | .infinity s => if Double.isMinus s then "-inf" else "inf"
  | .zero s => if Double.isMinus s then "-0.0" else "0.0"
  | .finite s m q _ =>
      let (d, k) := (interval m q).shortest
      (if Double.isMinus s then "-" else "") ++ String.ofList (floatLayout.write d k)

def render : Value → String
  | float x => renderFloat x
  | int n => Decimal.ofInt n.toInt
  | string text => quoted text
  | bool b => truthWord b

end Value

end LineCalc
