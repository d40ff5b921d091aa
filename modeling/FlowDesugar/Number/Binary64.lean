/-!
# Doubles as exact values

A finite double is kept as what it denotes, a significand times a power of two, so that reading and
writing decimals is exact arithmetic on natural numbers. `Binary64.ofDecimal` rounds a decimal to
the nearest double, a half going to the even neighbour.
-/

namespace FlowDesugar

/-- A finite double: `significand * 2 ^ exponent`, negated when `negative` holds. The values built
here are canonical: the significand is below `2 ^ 53`, the exponent is at least `-1074`, and unless
the exponent is `-1074` the significand is at least `2 ^ 52`. -/
structure Binary64 where
  negative : Bool
  significand : Nat
  exponent : Int
deriving DecidableEq, Repr

namespace Binary64

/-- The zero of the given sign. -/
def zero (negative : Bool) : Binary64 :=
  { negative, significand := 0, exponent := -1074 }

/-- Equality of the values denoted: the two zeros are equal. -/
def sameValue (a b : Binary64) : Bool :=
  (a.significand == 0 && b.significand == 0) || a == b

/-- The number of decimal digits of `n`; zero has one. -/
def digitCount (n : Nat) : Nat :=
  (Nat.toDigits 10 n).length

/-- The quotient `num / den` to the nearest natural number, a half going to the even neighbour. -/
def roundDiv (num den : Nat) : Nat :=
  let quotient := num / den
  let twice := 2 * (num % den)
  if twice < den then quotient
  else if den < twice then quotient + 1
  else if quotient % 2 = 0 then quotient
  else quotient + 1

/-- The pair of natural numbers whose quotient is `num / den / 2 ^ power`. -/
def unscale (num den : Nat) (power : Int) : Nat × Nat :=
  if 0 ≤ power then (num, den <<< power.toNat) else (num <<< (-power).toNat, den)

/-- The greatest `k` with `2 ^ k ≤ num / den`, for positive `num` and `den`. -/
def floorLog2 (num den : Nat) : Int :=
  let guess : Int := (Nat.log2 num : Int) - (Nat.log2 den : Int)
  let (n, d) := unscale num den guess
  if n < d then guess - 1 else guess

/-- The double nearest to `num / den`, if it is finite. -/
def ofRatio (negative : Bool) (num den : Nat) : Option Binary64 :=
  if num = 0 then some (zero negative)
  else
    let exponent := max (floorLog2 num den - 52) (-1074)
    let (n, d) := unscale num den exponent
    let significand := roundDiv n d
    let (significand, exponent) :=
      if significand = Nat.pow 2 53 then (Nat.pow 2 52, exponent + 1) else (significand, exponent)
    if 971 < exponent then none else some { negative, significand, exponent }

/-- The double nearest to `digits * 10 ^ exponent`, if it is finite. The place of the leading digit
settles values that are far too large or far too small, so no huge power of ten is ever formed. -/
def ofDecimal (negative : Bool) (digits : Nat) (exponent : Int) : Option Binary64 :=
  if digits = 0 then some (zero negative)
  else
    let lead := (digitCount digits : Int) + exponent
    if 309 < lead then none
    else if lead < -323 then some (zero negative)
    else if 0 ≤ exponent then ofRatio negative (digits * Nat.pow 10 exponent.toNat) 1
    else ofRatio negative digits (Nat.pow 10 (-exponent).toNat)

end Binary64

end FlowDesugar
