import FlowDesugar.Number.Binary64

/-!
# The shortest decimal of a double

`Binary64.shortest` gives the fewest decimal digits that round back to a double; of several decimals
of that length it takes the nearest to the value, an exact tie going to the even last digit. The
search runs through the lengths `1, 2, ... 17` and looks, on each grid, only at the two neighbours
of the value: if any point of a grid rounds back, one of these two does.

`Binary64.text` writes the digits: positional from `10 ^ -5` up to `10 ^ 16`, always with a
fraction, and with an exponent otherwise.
-/

namespace FlowDesugar

/-- A decimal: `digits * 10 ^ exponent`. -/
structure Decimal where
  digits : Nat
  exponent : Int
deriving DecidableEq, Repr

namespace Binary64

/-- The decimals that round to a double: those between `low / den` and `high / den`, the ends
included when `closed` holds. The double itself is `value / den`. -/
structure Rounding where
  low : Nat
  value : Nat
  high : Nat
  den : Nat
  closed : Bool

/-- The interval of reals that round to `b`, up to its sign. Half a unit lies on either side, but
only a quarter of a unit below a power of two. -/
def rounding (b : Binary64) : Rounding :=
  let below := if b.significand = Nat.pow 2 52 ∧ -1074 < b.exponent then 1 else 2
  let scale (n : Nat) : Nat × Nat := unscale n 1 (2 - b.exponent)
  { low := (scale (4 * b.significand - below)).1
    value := (scale (4 * b.significand)).1
    high := (scale (4 * b.significand + 2)).1
    den := (scale 1).2
    closed := b.significand % 2 = 0 }

/-- The greatest `k` with `10 ^ k ≤ num / den`, for positive `num` and `den`. -/
def floorLog10 (num den : Nat) : Int :=
  if den ≤ num then (digitCount (num / den) : Int) - 1
  else
    let shift := digitCount den - digitCount num
    if den ≤ num * Nat.pow 10 shift then -(shift : Int) else -(shift : Int) - 1

/-- The value on the grid of multiples of `10 ^ power`: the interval with that unit divided out. -/
def Rounding.onGrid (r : Rounding) (power : Int) : Rounding :=
  if 0 ≤ power then { r with den := r.den * Nat.pow 10 power.toNat }
  else
    let factor := Nat.pow 10 (-power).toNat
    { r with low := r.low * factor, value := r.value * factor, high := r.high * factor }

/-- Whether the grid point `n` rounds back. -/
def Rounding.holds (r : Rounding) (n : Nat) : Bool :=
  let point := n * r.den
  if r.closed then r.low ≤ point && point ≤ r.high else r.low < point && point < r.high

/-- The best grid point among the two neighbours of the value, if one rounds back. -/
def Rounding.best? (r : Rounding) : Option Nat :=
  let floor := r.value / r.den
  match r.holds floor, r.holds (floor + 1) with
  | true, true => some (roundDiv r.value r.den)
  | true, false => some floor
  | false, true => some (floor + 1)
  | false, false => none

/-- The fewest digits that round back to `b`, up to its sign. -/
def shortest (b : Binary64) : Decimal :=
  let r := b.rounding
  let lead := floorLog10 r.value r.den
  let found := (List.range 17).findSome? fun (length : Nat) =>
    let power := lead - (length : Int)
    (r.onGrid power).best?.map fun digits => Decimal.mk digits power
  found.getD ⟨0, 0⟩

/-- The digits of a decimal without trailing zeros, and the place of the leading one. -/
def significant (d : Decimal) : List Char × Int :=
  let all := Nat.toDigits 10 d.digits
  ((all.reverse.dropWhile (· == '0')).reverse, d.exponent + (all.length : Int) - 1)

/-- A decimal `d.ddd * 10 ^ lead` in positional notation, with at least one digit on either side of
the point. -/
def positional (digits : List Char) (lead : Int) : List Char :=
  if lead < 0 then
    '0' :: '.' :: List.replicate (-lead - 1).toNat '0' ++ digits
  else
    let whole := lead.toNat + 1
    let padded := digits ++ List.replicate (whole + 1 - digits.length) '0'
    padded.take whole ++ '.' :: padded.drop whole

/-- A decimal `d.ddd * 10 ^ lead` with an exponent, which carries its sign. -/
def scientific (digits : List Char) (lead : Int) : List Char :=
  let sign := if lead < 0 then '-' else '+'
  let tail := match digits.drop 1 with
    | [] => []
    | rest => '.' :: rest
  digits.take 1 ++ tail ++ 'e' :: sign :: Nat.toDigits 10 lead.natAbs

/-- The text of a double. -/
def text (b : Binary64) : String :=
  let body :=
    if b.significand = 0 then ['0', '.', '0']
    else
      let (digits, lead) := significant b.shortest
      if -5 ≤ lead ∧ lead < 16 then positional digits lead else scientific digits lead
  String.ofList (if b.negative then '-' :: body else body)

end Binary64

end FlowDesugar
