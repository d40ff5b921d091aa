import FlowDesugar.Number.Shortest

/-!
# Numbers

A number is a natural number of 64 bits, a negative integer down to `-2 ^ 63`, or a double. The
three kinds never overlap: an integer in range is never kept as a double, unless it was written with
a fraction or an exponent.
-/

namespace FlowDesugar

/-- A number of the tree, in the representation it was read in. -/
inductive Number where
  /-- A natural number of 64 bits. -/
  | natural (value : UInt64)
  /-- The negative integer `-magnitude`. -/
  | negative (magnitude : Nat) (bound : 0 < magnitude ∧ magnitude ≤ Nat.pow 2 63)
  /-- A double. -/
  | double (value : Binary64)
deriving DecidableEq, Repr

namespace Number

/-- An integer given by sign and magnitude. One out of range, and a negative zero, is kept as the
nearest double; there is none when that is not finite. -/
def ofInteger (minus : Bool) (magnitude : Nat) : Option Number :=
  if minus then
    if bound : 0 < magnitude ∧ magnitude ≤ Nat.pow 2 63 then some (.negative magnitude bound)
    else (Binary64.ofDecimal true magnitude 0).map .double
  else
    if bound : magnitude < UInt64.size then some (.natural (UInt64.ofNatLT magnitude bound))
    else (Binary64.ofDecimal false magnitude 0).map .double

/-- The value of a number that is kept as a natural number. -/
def natural? : Number → Option UInt64
  | .natural value => some value
  | _ => none

/-- Equality within a representation; the two zeros of doubles are equal. -/
def same : Number → Number → Bool
  | .natural a, .natural b => a == b
  | .negative a _, .negative b _ => a == b
  | .double a, .double b => a.sameValue b
  | _, _ => false

/-- The decimal digits of a natural number. -/
def naturalText (n : Nat) : String :=
  String.ofList (Nat.toDigits 10 n)

/-- The text of a number. -/
def text : Number → String
  | .natural value => naturalText value.toNat
  | .negative magnitude _ => "-" ++ naturalText magnitude
  | .double value => value.text

end Number

end FlowDesugar
