/-!
# Scanning TOML text

A scan reads characters from the front of a text and fails on text that is not TOML. Line ends are
line feeds here: `foldLineEnds` makes one of a carriage return and the line feed after it.
-/

namespace FlowDesugar.Toml

/-- A computation that reads from the front of a text and may fail. -/
abbrev Scan := StateT (List Char) Option

/-- A text whose line ends are line feeds. -/
def foldLineEnds : List Char → List Char
  | [] => []
  | '\r' :: '\n' :: cs => '\n' :: foldLineEnds cs
  | c :: cs => c :: foldLineEnds cs

namespace Scan

/-- The next character, which stays. -/
def peek : Scan (Option Char) := do
  return (← get).head?

/-- Reads a character if it is next. -/
def accept (c : Char) : Scan Bool := do
  match ← get with
  | next :: rest =>
    if next = c then set rest; return true
    else return false
  | [] => return false

/-- Reads a character, which has to be next. -/
def expect (c : Char) : Scan Unit := do
  if ← accept c then return () else failure

/-- Reads characters as long as they satisfy a test. -/
def takeWhile (test : Char → Bool) : Scan (List Char) := do
  let cs ← get
  set (cs.dropWhile test)
  return cs.takeWhile test

/-- Skips blanks and tabs. -/
def blanks : Scan Unit :=
  discard (takeWhile fun c => c = ' ' || c = '\t')

/-- Reads a line feed, or finds the end of the text. -/
def lineEnd : Scan Unit := do
  match ← get with
  | [] => return ()
  | c :: rest => if c = '\n' then set rest else failure

/-- Reads a comment with its line end, if one is next. Of the controls a comment may hold tabs only.
-/
def comment : Scan Bool := do
  if ← accept '#' then
    discard (takeWhile fun c => c = '\t' || ' ' ≤ c)
    lineEnd
    return true
  else return false

/-- Reads the rest of a line, which may hold a comment only. -/
def restOfLine : Scan Unit := do
  blanks
  if ← comment then return () else lineEnd

/-- Reads what may stand between two lines or two items: blanks, comments and line feeds. `bound` is
at least the number of line feeds and comments. -/
def betweenWithin : Nat → Scan Unit
  | 0 => blanks
  | bound + 1 => do
    blanks
    if ← accept '\n' then betweenWithin bound
    else if ← comment then betweenWithin bound
    else return ()

/-- Reads blanks, comments and line feeds. -/
def between : Scan Unit := do
  betweenWithin (← get).length

/-- The characters of words: of bare keys, numbers and dates. -/
def isWordChar (c : Char) : Bool :=
  c.isAlphanum || c = '-' || c = '_'

/-- Reads a word. -/
def word : Scan (List Char) := do
  let cs ← takeWhile isWordChar
  if cs.isEmpty then failure else return cs

/-! ### Strings -/

/-- The characters that may stand in a string as they are. -/
def isPlain (c : Char) : Bool :=
  c = '\t' || (' ' ≤ c && c ≠ '\x7f')

/-- The value of a hexadecimal digit. -/
def hexDigit? (c : Char) : Option Nat :=
  if c.isDigit then some (c.toNat - '0'.toNat)
  else if 'a' ≤ c ∧ c ≤ 'f' then some (c.toNat - 'a'.toNat + 10)
  else if 'A' ≤ c ∧ c ≤ 'F' then some (c.toNat - 'A'.toNat + 10)
  else none

/-- The character whose number is given by hexadecimal digits. -/
def codePoint? (digits : List Char) : Option Char := do
  let values ← digits.mapM hexDigit?
  let code := values.foldl (fun code digit => 16 * code + digit) 0
  if code.isValidChar then some (Char.ofNat code) else none

/-- Reads the digits of a character number. -/
def numbered (count : Nat) (cs : List Char) : Option (List Char × List Char) := do
  if cs.length < count then none
  else
    let c ← codePoint? (cs.take count)
    return ([c], cs.drop count)

/-- Whether a character is skipped after a line that ends in a backslash. -/
def isGap (c : Char) : Bool :=
  c = ' ' || c = '\t' || c = '\n'

/-- Reads what follows a backslash: gives the characters that stand for it and the rest. In a string
of several lines a backslash at the end of a line takes the gap up to the next visible character
away. -/
def escaped (multiline : Bool) : List Char → Option (List Char × List Char)
  | [] => none
  | 'b' :: cs => some (['\x08'], cs)
  | 't' :: cs => some (['\t'], cs)
  | 'n' :: cs => some (['\n'], cs)
  | 'f' :: cs => some (['\x0c'], cs)
  | 'r' :: cs => some (['\r'], cs)
  | '"' :: cs => some (['"'], cs)
  | '\\' :: cs => some (['\\'], cs)
  | 'u' :: cs => numbered 4 cs
  | 'U' :: cs => numbered 8 cs
  | c :: cs =>
    if multiline && isGap c then
      match (c :: cs).dropWhile fun c => c = ' ' || c = '\t' with
      | [] => none
      | '\n' :: rest => some ([], rest.dropWhile isGap)
      | _ => none
    else none

/-- Reads the text of a string up to its closing quotes. `quote` is its quote, and in a string
between double quotes the backslash escapes. Three quotes close a string of several lines; of up to
five in a row the first ones belong to the text. `bound` exceeds the number of characters left. -/
def stringBody (quote : Char) (multiline : Bool) : Nat → List Char → Option (List Char × List Char)
  | 0, _ => none
  | _ + 1, [] => none
  | bound + 1, c :: cs =>
    let goOn (text rest : List Char) : Option (List Char × List Char) :=
      (stringBody quote multiline bound rest).map fun (more, rest) => (text ++ more, rest)
    if c = quote then
      if multiline then
        let more := (cs.takeWhile (· = quote)).length
        if more < 2 then goOn (c :: cs.take more) (cs.drop more)
        else
          let kept := min (more - 2) 2
          some (List.replicate kept quote, cs.drop (kept + 2))
      else some ([], cs)
    else if c = '\n' then
      if multiline then goOn [c] cs else none
    else if c = '\\' ∧ quote = '"' then do
      let (text, rest) ← escaped multiline cs
      goOn text rest
    else if isPlain c then goOn [c] cs
    else none

/-- Reads a string after its first quote, and tells whether it is one of several lines. A line feed
right after three quotes does not count. -/
def string (quote : Char) : Scan (String × Bool) := do
  let cs ← get
  let (multiline, cs) := match cs with
    | a :: b :: rest =>
      if a = quote ∧ b = quote then
        (true, match rest with
          | '\n' :: rest => rest
          | rest => rest)
      else (false, cs)
    | cs => (false, cs)
  match stringBody quote multiline (cs.length + 1) cs with
  | some (text, rest) => do
    set rest
    return (String.ofList text, multiline)
  | none => failure

end Scan

end FlowDesugar.Toml
