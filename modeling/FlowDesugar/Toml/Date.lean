/-!
# TOML dates

A date is a time of day, a day, or a day with a time of day. Only the last may give the zone of the
time. Each month has up to 31 days and an hour may be the 24th.
-/

namespace FlowDesugar.Toml

/-- Splits two digits off. -/
def twoDigits? : List Char → Option (Nat × List Char)
  | a :: b :: rest =>
    if a.isDigit ∧ b.isDigit then
      some (10 * (a.toNat - '0'.toNat) + (b.toNat - '0'.toNat), rest)
    else none
  | _ => none

/-- Splits a mark off. -/
def mark? (c : Char) : List Char → Option (List Char)
  | next :: rest => if next = c then some rest else none
  | [] => none

/-- Splits a day `YYYY-MM-DD` off. -/
def day? (cs : List Char) : Option (List Char) := do
  let (_, cs) ← twoDigits? cs
  let (_, cs) ← twoDigits? cs
  let (month, cs) ← twoDigits? (← mark? '-' cs)
  let (day, cs) ← twoDigits? (← mark? '-' cs)
  if 1 ≤ month ∧ month ≤ 12 ∧ 1 ≤ day ∧ day ≤ 31 then some cs else none

/-- Splits a fraction of a second off, if there is one. -/
def secondFraction? : List Char → Option (List Char)
  | '.' :: cs =>
    if (cs.takeWhile Char.isDigit).isEmpty then none else some (cs.dropWhile Char.isDigit)
  | cs => some cs

/-- Splits a time `HH:MM:SS` off, with a fraction of the second if there is one. -/
def time? (cs : List Char) : Option (List Char) := do
  let (hour, cs) ← twoDigits? cs
  let (minute, cs) ← twoDigits? (← mark? ':' cs)
  let (second, cs) ← twoDigits? (← mark? ':' cs)
  let cs ← secondFraction? cs
  if hour ≤ 24 ∧ minute ≤ 59 ∧ second ≤ 59 then some cs else none

/-- Splits the offset of a time zone off, if there is one. -/
def zone? : List Char → Option (List Char)
  | [] => some []
  | c :: cs =>
    if c = 'Z' ∨ c = 'z' then some cs
    else if c = '+' ∨ c = '-' then do
      let (_, cs) ← twoDigits? cs
      let (_, cs) ← twoDigits? (← mark? ':' cs)
      return cs
    else none

/-- Splits what may follow a day off: a time of day, with its zone if it gives one. -/
def timeOfDay? : List Char → Option (List Char)
  | [] => some []
  | c :: cs => if c = 'T' ∨ c = 't' ∨ c = ' ' then time? cs >>= zone? else none

/-- Whether a text is a date: a time of day, or a day with or without a time. -/
def isDate (text : String) : Bool :=
  let rest := match text.toList with
    | a :: b :: ':' :: cs => time? (a :: b :: ':' :: cs)
    | cs => day? cs >>= timeOfDay?
  rest = some []

end FlowDesugar.Toml
