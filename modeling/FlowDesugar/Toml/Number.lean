import FlowDesugar.Number.Binary64
import FlowDesugar.Toml.Scan
import FlowDesugar.Toml.Value

/-!
# TOML numbers and dates

Both begin with a word that starts with a digit or a minus sign. A word with a `T`, or with a minus
sign inside that belongs to no exponent, begins a date; a word before a colon begins a time of day;
any other word begins a number. A number may also have a plus sign in front.
-/

namespace FlowDesugar.Toml

/-! ### Digits -/

/-- Whether a character is a digit to a base. -/
def isDigitTo (base : Nat) (c : Char) : Bool :=
  match Scan.hexDigit? c with
  | some value => value < base
  | none => false

/-- Whether underscores stand between digits only, one at a time. -/
def underscoresApart : List Char → Bool
  | [] => false
  | ['_'] => false
  | '_' :: '_' :: _ => false
  | [_] => true
  | _ :: cs => underscoresApart cs

/-- Splits a text into digits, without their underscores, and the rest. Unless `zeros` allows it, no
zero stands before another digit. -/
def digits (base : Nat) (zeros : Bool) (cs : List Char) : Option (List Char × List Char) :=
  let body := cs.takeWhile fun c => isDigitTo base c || c = '_'
  let figures := body.filter (· ≠ '_')
  if body.head? = some '_' ∨ !underscoresApart body then none
  else if !zeros ∧ figures.head? = some '0' ∧ 1 < figures.length then none
  else some (figures, cs.drop body.length)

/-- The number that digits denote. -/
def numeral (base : Nat) (figures : List Char) : Nat :=
  figures.foldl (fun value c => base * value + (Scan.hexDigit? c).getD 0) 0

/-- Splits a minus sign off. -/
def minus : List Char → Bool × List Char
  | '-' :: cs => (true, cs)
  | cs => (false, cs)

/-- An integer that fits in 64 bits with its sign. -/
def integer? (negative : Bool) (magnitude : Nat) : Option Value :=
  if magnitude < Nat.pow 2 63 ∨ (negative ∧ magnitude = Nat.pow 2 63) then
    some (.integer (if negative then -magnitude else magnitude))
  else none

/-- The integer of a word whose digits are to a base given by its first two characters. -/
def basedInteger? (base : Nat) (cs : List Char) : Option Value := do
  let (figures, rest) ← digits base true cs
  if rest.isEmpty then integer? false (numeral base figures) else none

/-- The decimal integer of a word. -/
def decimalInteger? (cs : List Char) : Option Value := do
  let (negative, cs) := minus cs
  let (figures, rest) ← digits 10 false cs
  if rest.isEmpty then integer? negative (numeral 10 figures) else none

/-! ### Numbers with a fraction or an exponent -/

/-- The number `whole.fraction` times ten to the power of `exponent`, which has to be finite. -/
def float? (negative : Bool) (whole fraction : List Char) (exponent : Int) : Option Value := do
  let figures := whole ++ fraction
  let _ ← Binary64.ofDecimal negative (numeral 10 figures) (exponent - fraction.length)
  let sign := if negative then "-" else ""
  let digits := String.ofList whole ++ "." ++ String.ofList fraction
  return .float (sign ++ digits ++ "e" ++ toString exponent)

/-- Reads an exponent, whose mark and digits are what is left of a word. A plus sign ends the word,
so the digits then stand in a word of their own. -/
def exponent (cs : List Char) : Scan Int := do
  match cs with
  | [] => return 0
  | mark :: cs =>
    if mark ≠ 'e' ∧ mark ≠ 'E' then failure
    let (negative, cs) ← if cs.isEmpty then do
        discard (Scan.accept '+')
        pure (false, ← Scan.word)
      else pure (minus cs)
    let (figures, rest) ← digits 10 true cs
    if rest.isEmpty then
      let magnitude : Int := numeral 10 figures
      return if negative then -magnitude else magnitude
    else failure

/-- Reads a number with a fraction, if `after` holds its word, or with an exponent only. -/
def float (cs : List Char) (after : Option (List Char)) : Scan Value := do
  let (negative, cs) := minus cs
  let (whole, rest) ← digits 10 false cs
  let (fraction, rest) ← match after with
    | none => pure ([], rest)
    | some after => if rest.isEmpty then digits 10 true after else failure
  let power ← exponent rest
  float? negative whole fraction power

/-- Reads a number whose first word has been read. -/
def number (cs : List Char) : Scan Value := do
  match cs with
  | '0' :: 'x' :: cs => basedInteger? 16 cs
  | '0' :: 'o' :: cs => basedInteger? 8 cs
  | '0' :: 'b' :: cs => basedInteger? 2 cs
  | cs =>
    if cs.any fun c => c = 'e' || c = 'E' then float cs none
    else if ← Scan.accept '.' then float cs (some (← Scan.word))
    else if (minus cs).2 = "inf".toList ∨ (minus cs).2 = "nan".toList then
      return .float (String.ofList cs)
    else decimalInteger? cs

/-! ### Dates -/

/-- Reads a mark and a word after it, if the mark is next. -/
def marked (mark : Char) : Scan Unit := do
  if ← Scan.accept mark then discard Scan.word else return ()

/-- Reads the minutes and seconds of a time, after the colon that follows the hour. -/
def minutes : Scan Unit := do
  discard Scan.word
  Scan.expect ':'
  discard Scan.word
  marked '.'
  marked '+'
  marked ':'

/-- Reads a blank and the word after it, if these two are next. -/
def spacedWord : Scan Unit := do
  match ← get with
  | ' ' :: c :: _ =>
    if Scan.isWordChar c then
      discard (Scan.accept ' ')
      discard Scan.word
    else return ()
  | _ => return ()

/-- Reads a date whose first word has been read, and the colon after it if `colon` is true. Whether
the text is a date indeed is left to `Value.resolve?`. -/
def date (first : List Char) (colon : Bool) : Scan Value := do
  let before ← get
  spacedWord
  if colon then minutes
  else if ← Scan.accept ':' then minutes
  let after ← get
  let read := before.take (before.length - after.length)
  return .date (String.ofList (first ++ (if colon then [':'] else []) ++ read))

/-- Whether a text has `a` right before `b`. -/
def hasPair (a b : Char) : List Char → Bool
  | c :: d :: cs => (c = a && d = b) || hasPair a b (d :: cs)
  | _ => false

/-- Whether a word begins a date. -/
def beginsDate (cs : List Char) : Bool :=
  cs.any (fun c => c = 'T' || c = 't')
    || (cs.tail.contains '-' && !hasPair 'e' '-' cs && !hasPair 'E' '-' cs)

/-- Reads a number or a date whose first word has been read. -/
def numberOrDate (cs : List Char) : Scan Value := do
  if beginsDate cs then date cs false
  else if ← Scan.accept ':' then date cs true
  else number cs

end FlowDesugar.Toml
