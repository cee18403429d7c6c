/-
# `LineCalc.Decimal` — numbers in decimal

Whole numbers are written in base ten, and a run of decimal digits has a value.

Any other decimal number is its significant digits and the exponent of the first of
them.  It is written positionally where that exponent lies in a range, and with an
exponent elsewhere; the range is the one decision a layout makes.
-/

namespace LineCalc.Decimal

/-! ## Whole numbers -/

/-- The decimal digits of `n`, most significant first and without leading zeros. -/
def digits (n : Nat) : List Char := Nat.toDigits 10 n

/-- The number a run of decimal digits stands for; the empty run stands for zero. -/
def value (ds : List Char) : Nat := Nat.ofDigitChars 10 ds 0

theorem value_digits (n : Nat) : value (digits n) = n :=
  Nat.ofDigitChars_toDigits (by decide) (by decide)

def ofNat (n : Nat) : String := String.ofList (digits n)

/-- An integer in decimal, with a minus sign when it is negative. -/
def ofInt : Int → String
  | .ofNat n => ofNat n
  | .negSucc n => "-" ++ ofNat (n + 1)

/-! ## Digits with an exponent -/

/-- The exponents of a first digit for which a number is written positionally. -/
structure Layout where
  least : Int
  most : Int
deriving Repr, Inhabited

def dropTrailingZeros (ds : List Char) : List Char := (ds.reverse.dropWhile (· == '0')).reverse

namespace Layout

/-- Digits with a point, and at least one digit on each side of it. -/
def positional (ds : List Char) : Int → List Char
  | .ofNat n =>
      let whole := ds.take (n + 1)
      let fraction := ds.drop (n + 1)
      whole ++ List.replicate (n + 1 - whole.length) '0' ++ '.' ::
        (if fraction.isEmpty then ['0'] else fraction)
  | .negSucc n => '0' :: '.' :: (List.replicate n '0' ++ ds)

/-- Digits with a point after the first, if more follow, and an exponent. -/
def scientific (ds : List Char) (exponent : Int) : List Char :=
  let mantissa :=
    match ds with
    | d :: e :: rest => d :: '.' :: e :: rest
    | _ => ds
  mantissa ++ 'e' :: (ofInt exponent).toList

/-- The number `d * 10 ^ k`, with `d` positive. -/
def write (l : Layout) (d : Nat) (k : Int) : List Char :=
  let ds := digits d
  let exponent := k + ds.length - 1
  let significant := dropTrailingZeros ds
  if l.least ≤ exponent ∧ exponent ≤ l.most then positional significant exponent
  else scientific significant exponent

end Layout

end LineCalc.Decimal
