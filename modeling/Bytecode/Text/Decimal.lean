/-!
# Averages with six decimals

An average is a quotient of two counts, taken in binary floating point and shown with six decimals. Both roundings go
to the nearest value and, at a tie, to the even one. They are done here on natural numbers: a positive quotient is
scaled until its integer part has as many bits as a significand, rounded there, and scaled back.
-/

namespace Bytecode.Text

/-- The natural number nearest to the quotient, at a tie the even one. -/
def roundDiv (numerator denominator : Nat) : Nat :=
  let quotient := numerator / denominator
  let rest := 2 * (numerator % denominator)
  if rest < denominator then quotient
  else if denominator < rest then quotient + 1
  else if quotient % 2 = 0 then quotient else quotient + 1

/-- A nonnegative fraction. -/
structure Fraction where
  numerator : Nat
  denominator : Nat

/-- Bits of a significand in double precision. -/
def significandBits : Nat := 53

/-- The fraction times a power of two. -/
def Fraction.scale (fraction : Fraction) (exponent : Int) : Fraction :=
  ⟨fraction.numerator * Nat.pow 2 exponent.toNat, fraction.denominator * Nat.pow 2 (-exponent).toNat⟩

/-- The binary exponent by which a positive fraction is scaled to lie in [2^52, 2^53). The lengths of the two parts
leave a choice between two exponents. -/
def Fraction.significandScale (fraction : Fraction) : Int :=
  let exponent : Int := significandBits - 1 - (fraction.numerator.log2 - fraction.denominator.log2 : Int)
  let scaled := fraction.scale exponent
  if scaled.numerator < scaled.denominator * Nat.pow 2 (significandBits - 1) then exponent + 1 else exponent

/-- The nearest double. Counts stay far from the ends of the exponent range. -/
def Fraction.toDouble (fraction : Fraction) : Fraction :=
  if fraction.numerator = 0 then fraction
  else
    let exponent := fraction.significandScale
    let scaled := fraction.scale exponent
    (Fraction.mk (roundDiv scaled.numerator scaled.denominator) 1).scale (-exponent)

/-- The quotient of two doubles as a double. -/
def Fraction.divide (left right : Fraction) : Fraction :=
  (Fraction.mk (left.numerator * right.denominator) (left.denominator * right.numerator)).toDouble

def averagePlaces : Nat := 6

/-- Digits filled up with zeros on the left. -/
def padDigits (width : Nat) (digits : List Char) : List Char :=
  List.replicate (width - digits.length) '0' ++ digits

def Fraction.toFixed (fraction : Fraction) (places : Nat) : String :=
  let scaled := roundDiv (fraction.numerator * Nat.pow 10 places) fraction.denominator
  let digits := padDigits (places + 1) (Nat.toDigits 10 scaled)
  String.ofList (digits.take (digits.length - places) ++ '.' :: digits.drop (digits.length - places))

/-- The average of `total` over `count` items; no items average to zero. -/
def average (total count : Nat) : String :=
  let quotient :=
    if count = 0 then Fraction.mk 0 1
    else (Fraction.mk total 1).toDouble.divide (Fraction.mk count 1).toDouble
  quotient.toFixed averagePlaces

end Bytecode.Text
