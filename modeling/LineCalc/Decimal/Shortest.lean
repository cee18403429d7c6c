/-
# `LineCalc.Decimal.Shortest` — the fewest digits that read back

A binary number of limited precision stands for all reals that round to it.  Among the
decimals in that interval the shortest one is chosen, and of two equally short ones
the one nearer to the number itself.

The search looks at one decimal grid after another, from one digit on, each ten times
finer than the one before.  If any point of a grid lies in the interval, so does one of
the two grid points next to the number, hence only these two are tested.  All tests
are comparisons of natural numbers.
-/
import LineCalc.Decimal

namespace LineCalc.Decimal

/-- The reals that round to a binary number, measured in units of `2 ^ exponent`: the number is
`mid`, the ends are `low` and `high`, and `closed` says whether the ends belong to it. -/
structure Interval where
  low : Nat
  mid : Nat
  high : Nat
  closed : Bool
  exponent : Int
deriving Repr, Inhabited

namespace Interval

/-- The interval of `m * 2 ^ q`.  The neighbour below is half as far away as the one above where
`m` is the least mantissa of its power of two (`narrow`).  An even mantissa keeps the ends, as a
real halfway between two numbers rounds to the even one. -/
def ofBinary (m : Nat) (q : Int) (narrow : Bool) : Interval where
  low := 4 * m - (if narrow then 1 else 2)
  mid := 4 * m
  high := 4 * m + 2
  closed := m % 2 == 0
  exponent := q - 2

/-- The step of the grid of multiples of `10 ^ k`, in a measure common to it and the units of the
interval. -/
def step (i : Interval) (k : Int) : Nat := Nat.pow 10 k.toNat * Nat.pow 2 (-i.exponent).toNat

/-- The unit of the interval in the same measure. -/
def unit (i : Interval) (k : Int) : Nat := Nat.pow 10 (-k).toNat * Nat.pow 2 i.exponent.toNat

/-- Whether `d * 10 ^ k` lies in the interval. -/
def admits (i : Interval) (k : Int) (d : Nat) : Bool :=
  let x := d * i.step k
  if i.closed then i.low * i.unit k ≤ x && x ≤ i.high * i.unit k
  else i.low * i.unit k < x && x < i.high * i.unit k

/-- The greatest `d` such that `d * 10 ^ k` does not exceed the number. -/
def below (i : Interval) (k : Int) : Nat := i.mid * i.unit k / i.step k

/-- Whether the number is nearer to `below` than to the next grid point. -/
def leansBelow (i : Interval) (k : Int) : Bool :=
  2 * (i.mid * i.unit k) < (2 * i.below k + 1) * i.step k

/-- The multiple of `10 ^ k` in the interval that is nearest to the number; the greater of two
equally near ones. -/
def nearest? (i : Interval) (k : Int) : Option Nat :=
  let d := i.below k
  match i.admits k d, i.admits k (d + 1) with
  | true, true => some (if i.leansBelow k then d else d + 1)
  | true, false => some d
  | false, true => some (d + 1)
  | false, false => none

/-- The exponent of the number's first digit. -/
def firstExponent (i : Interval) : Int :=
  let k : Int := (digits (i.unit 0 * i.mid)).length - (digits (i.step 0)).length
  if i.step k ≤ i.mid * i.unit k then k else k - 1

/-- The first multiple found on the grids from `10 ^ k` down, `n` of them; on the grid below all
these the number is cut down. -/
def search (i : Interval) : Nat → Int → Nat × Int
  | 0, k => (i.below k, k)
  | n + 1, k =>
    match i.nearest? k with
    | some d => (d, k)
    | none => i.search n (k - 1)

/-- How many digits tell any two doubles apart. -/
def enoughDigits : Nat := 17

/-- The shortest decimal in the interval, as `d * 10 ^ k`. -/
def shortest (i : Interval) : Nat × Int := i.search enoughDigits i.firstExponent

end Interval

end LineCalc.Decimal
