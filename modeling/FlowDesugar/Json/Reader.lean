import FlowDesugar.Json.Value
import FlowDesugar.Text.Lines

/-!
# Reading JSON

`Json.read` takes a text to the value it denotes, or to the first fault in it with its line and
column. The reader walks the characters of the text and counts the bytes it has consumed. A fault is
placed either where the reader stands, or one byte further on when it was seen by looking ahead
(`Cursor.ahead`); a fault in the middle of a wide character is placed by its bytes.

Nesting is limited: `depthLimit` arrays and objects may be open at once, and the recursion of
`readValue` runs on what is left of that budget. The loops over items and entries run on a bound for
their number, for which the count of the remaining characters always suffices.
-/

namespace FlowDesugar.Json

/-- What can be wrong with a text. -/
inductive Fault where
  | endInValue
  | endInString
  | endInArray
  | endInObject
  | expectedValue
  | expectedWord
  | invalidNumber
  | numberOutOfRange
  | controlCharacter
  | invalidEscape
  | loneSurrogate
  | endOfSurrogatePair
  | expectedItemEnd
  | expectedEntryEnd
  | expectedColon
  | trailingComma
  | keyNotString
  | trailingCharacters
  | tooDeep
deriving DecidableEq, Repr

/-- The wording of a fault. -/
def Fault.message : Fault → String
  | .endInValue => "EOF while parsing a value"
  | .endInString => "EOF while parsing a string"
  | .endInArray => "EOF while parsing a list"
  | .endInObject => "EOF while parsing an object"
  | .expectedValue => "expected value"
  | .expectedWord => "expected ident"
  | .invalidNumber => "invalid number"
  | .numberOutOfRange => "number out of range"
  | .controlCharacter => "control character (\\u0000-\\u001F) found while parsing a string"
  | .invalidEscape => "invalid escape"
  | .loneSurrogate => "lone leading surrogate in hex escape"
  | .endOfSurrogatePair => "unexpected end of hex escape"
  | .expectedItemEnd => "expected `,` or `]`"
  | .expectedEntryEnd => "expected `,` or `\x7d`"
  | .expectedColon => "expected `:`"
  | .trailingComma => "trailing comma"
  | .keyNotString => "key must be a string"
  | .trailingCharacters => "trailing characters"
  | .tooDeep => "recursion limit exceeded"

/-- A fault and the number of bytes before its place. -/
structure Failure where
  fault : Fault
  offset : Nat
deriving DecidableEq, Repr

/-- A fault with its place in the text: a line counted from one, and the number of bytes before the
place on that line. -/
structure ReadError where
  fault : Fault
  line : Nat
  column : Nat
deriving DecidableEq, Repr

/-- The wording of a fault with its place. -/
def ReadError.message (error : ReadError) : String :=
  error.fault.message ++ " at line " ++ Number.naturalText error.line ++ " column "
    ++ Number.naturalText error.column

/-- The rest of the text, and the number of bytes before it. -/
structure Cursor where
  rest : List Char
  offset : Nat

/-- A part of the text that was read, and what follows it. -/
structure Parsed (α : Type) where
  value : α
  after : Cursor

namespace Cursor

/-- A fault seen by looking at the next byte, if there is one. -/
def ahead (cursor : Cursor) (fault : Fault) : Failure :=
  match cursor.rest with
  | [] => ⟨fault, cursor.offset⟩
  | _ :: _ => ⟨fault, cursor.offset + 1⟩

/-- A fault met on consuming one byte of the next character, if there is one. -/
def consuming (cursor : Cursor) (atEnd other : Fault) : Failure :=
  match cursor.rest with
  | [] => ⟨atEnd, cursor.offset⟩
  | _ :: _ => ⟨other, cursor.offset + 1⟩

end Cursor

/-! ### White space and words -/

/-- The four characters that may stand between tokens. -/
def isBlank (c : Char) : Bool :=
  c == ' ' || c == '\n' || c == '\t' || c == '\r'

/-- Skips white space. -/
def skipBlanks (cursor : Cursor) : Cursor :=
  ⟨cursor.rest.dropWhile isBlank, cursor.offset + (cursor.rest.takeWhile isBlank).length⟩

/-- Reads the given letters. -/
def readWord (value : Value) : List Char → Cursor → Except Failure (Parsed Value)
  | [], cursor => .ok ⟨value, cursor⟩
  | letter :: letters, cursor =>
    match cursor.rest with
    | c :: rest =>
      if c = letter then readWord value letters ⟨rest, cursor.offset + 1⟩
      else .error (cursor.consuming .endInValue .expectedWord)
    | [] => .error (cursor.consuming .endInValue .expectedWord)

/-! ### Strings -/

/-- The value of a hexadecimal digit. -/
def hexDigit? (c : Char) : Option Nat :=
  if '0' ≤ c ∧ c ≤ '9' then some (c.toNat - '0'.toNat)
  else if 'a' ≤ c ∧ c ≤ 'f' then some (c.toNat - 'a'.toNat + 10)
  else if 'A' ≤ c ∧ c ≤ 'F' then some (c.toNat - 'A'.toNat + 10)
  else none

/-- The number written by four hexadecimal digits. -/
def codeUnit? (a b c d : Char) : Option Nat := do
  return (((← hexDigit? a) * 16 + (← hexDigit? b)) * 16 + (← hexDigit? c)) * 16 + (← hexDigit? d)

/-- The fault of four hexadecimal digits that are not there. Four bytes are consumed if the text has
them, and all of it otherwise. -/
def hexFailure (offset : Nat) (rest : List Char) : Failure :=
  if Text.byteCount rest < 4 then ⟨.endInString, offset + Text.byteCount rest⟩
  else ⟨.invalidEscape, offset + 4⟩

/-- The fault of a second half of a surrogate pair that is not there. -/
def pairFailure (offset : Nat) : List Char → Failure
  | [] => ⟨.endInString, offset⟩
  | ['\\'] => ⟨.endInString, offset + 1⟩
  | '\\' :: 'u' :: rest => hexFailure (offset + 2) rest
  | '\\' :: _ => ⟨.endOfSurrogatePair, offset + 2⟩
  | _ => ⟨.endOfSurrogatePair, offset + 1⟩

/-- The character that a letter after a backslash stands for. -/
def escaped? : Char → Option Char
  | '"' => some '"'
  | '\\' => some '\\'
  | '/' => some '/'
  | 'b' => some '\x08'
  | 'f' => some '\x0c'
  | 'n' => some '\n'
  | 'r' => some '\r'
  | 't' => some '\t'
  | _ => none

/-- Whether a code unit is the first half of a surrogate pair. -/
def isLeading (unit : Nat) : Bool :=
  0xD800 ≤ unit && unit ≤ 0xDBFF

/-- Whether a code unit is the second half of a surrogate pair. -/
def isTrailing (unit : Nat) : Bool :=
  0xDC00 ≤ unit && unit ≤ 0xDFFF

/-- The character that a surrogate pair stands for. -/
def pairChar (leading trailing : Nat) : Char :=
  Char.ofNat (0x10000 + (leading - 0xD800) * 0x400 + (trailing - 0xDC00))

/-- Reads a string after its opening quote, up to and with the closing one. -/
def readString (seen : List Char) (offset : Nat) : List Char → Except Failure (Parsed String)
  | [] => .error ⟨.endInString, offset⟩
  | '"' :: rest => .ok ⟨String.ofList seen.reverse, ⟨rest, offset + 1⟩⟩
  | ['\\'] => .error ⟨.endInString, offset + 1⟩
  | '\\' :: 'u' :: a :: b :: c :: d :: rest =>
    match codeUnit? a b c d with
    | none => .error (hexFailure (offset + 2) (a :: b :: c :: d :: rest))
    | some unit =>
      if isTrailing unit then .error ⟨.loneSurrogate, offset + 6⟩
      else if isLeading unit then
        match rest with
        | '\\' :: 'u' :: e :: f :: g :: h :: rest =>
          match codeUnit? e f g h with
          | none => .error (hexFailure (offset + 8) (e :: f :: g :: h :: rest))
          | some second =>
            if isTrailing second then readString (pairChar unit second :: seen) (offset + 12) rest
            else .error ⟨.loneSurrogate, offset + 12⟩
        | rest => .error (pairFailure (offset + 6) rest)
      else readString (Char.ofNat unit :: seen) (offset + 6) rest
  | '\\' :: 'u' :: rest => .error (hexFailure (offset + 2) rest)
  | '\\' :: letter :: rest =>
    match escaped? letter with
    | some c => readString (c :: seen) (offset + 2) rest
    | none => .error ⟨.invalidEscape, offset + 2⟩
  | c :: rest =>
    if c.toNat < 0x20 then .error ⟨.controlCharacter, offset + 1⟩
    else readString (c :: seen) (offset + c.utf8Size) rest

/-! ### Numbers -/

/-- Whether a character is a decimal digit. -/
def isDigit (c : Char) : Bool :=
  '0' ≤ c && c ≤ '9'

/-- The number written by decimal digits. -/
def digitsValue (digits : List Char) : Nat :=
  digits.foldl (fun n c => n * 10 + (c.toNat - '0'.toNat)) 0

/-- The digits at the cursor, and what follows them. -/
def takeDigits (cursor : Cursor) : List Char × Cursor :=
  let digits := cursor.rest.takeWhile isDigit
  (digits, ⟨cursor.rest.dropWhile isDigit, cursor.offset + digits.length⟩)

/-- The greatest exponent that is counted. -/
def exponentLimit : Nat := 2147483647

/-- The length of the shortest run of leading digits whose value exceeds `exponentLimit`, if there
is one. -/
def overflowLength? (digits : List Char) : Option Nat :=
  (List.range digits.length).findSome? fun n =>
    if exponentLimit < digitsValue (digits.take (n + 1)) then some (n + 1) else none

/-- The double of a mantissa and an exponent of ten. It is the nearest one, with however many digits
the number was written; a reader that rounds on the way, and not once at the end, can be off in the
last place. -/
def double (minus : Bool) (mantissa : Nat) (exponent : Int) (cursor : Cursor) :
    Except Failure (Parsed Value) :=
  match Binary64.ofDecimal minus mantissa exponent with
  | some value => .ok ⟨.number (.double value), cursor⟩
  | none => .error ⟨.numberOutOfRange, cursor.offset⟩

/-- Reads the exponent of a number after its `e`. An exponent beyond the limit makes a number zero
or puts it out of range, which is noticed at the digit that exceeds the limit. -/
def readExponent (minus : Bool) (mantissa : Nat) (scale : Int) (cursor : Cursor) :
    Except Failure (Parsed Value) :=
  let (down, cursor) : Bool × Cursor := match cursor.rest with
    | '+' :: rest => (false, ⟨rest, cursor.offset + 1⟩)
    | '-' :: rest => (true, ⟨rest, cursor.offset + 1⟩)
    | _ => (false, cursor)
  let (digits, after) := takeDigits cursor
  if digits.isEmpty then .error (cursor.consuming .endInValue .invalidNumber)
  else
    match overflowLength? digits with
    | some length =>
      if mantissa ≠ 0 ∧ ¬ down then .error ⟨.numberOutOfRange, cursor.offset + length⟩
      else .ok ⟨.number (.double (Binary64.zero minus)), after⟩
    | none =>
      let exponent : Int := digitsValue digits
      double minus mantissa (if down then scale - exponent else scale + exponent) after

/-- Reads the fraction and the exponent of a number, whose whole part is given. -/
def readFraction (minus : Bool) (whole : List Char) (cursor : Cursor) :
    Except Failure (Parsed Value) :=
  match cursor.rest with
  | '.' :: rest =>
    let start : Cursor := ⟨rest, cursor.offset + 1⟩
    let (digits, after) := takeDigits start
    if digits.isEmpty then
      match rest with
      | [] => .error (start.ahead .endInValue)
      | _ => .error (start.ahead .invalidNumber)
    else
      let mantissa := digitsValue (whole ++ digits)
      let scale : Int := -(digits.length : Int)
      match after.rest with
      | 'e' :: rest | 'E' :: rest => readExponent minus mantissa scale ⟨rest, after.offset + 1⟩
      | _ => double minus mantissa scale after
  | 'e' :: rest | 'E' :: rest => readExponent minus (digitsValue whole) 0 ⟨rest, cursor.offset + 1⟩
  | _ =>
    match Number.ofInteger minus (digitsValue whole) with
    | some number => .ok ⟨.number number, cursor⟩
    | none => .error ⟨.numberOutOfRange, cursor.offset⟩

/-- Reads a number after its sign. A zero may not be followed by a digit. -/
def readNumber (minus : Bool) (cursor : Cursor) : Except Failure (Parsed Value) :=
  let (digits, after) := takeDigits cursor
  match digits with
  | [] => .error (cursor.consuming .endInValue .invalidNumber)
  | '0' :: _ :: _ => .error ⟨.invalidNumber, cursor.offset + 2⟩
  | digits => readFraction minus digits after

/-! ### Arrays and objects -/

/-- Reads the items of an array after the first, up to and with the closing bracket. -/
def readItems (item : Cursor → Except Failure (Parsed Value)) :
    Nat → Cursor → Except Failure (Parsed (List Value))
  | 0, cursor => .error ⟨.endInArray, cursor.offset⟩
  | bound + 1, cursor =>
    let cursor := skipBlanks cursor
    match cursor.rest with
    | [] => .error (cursor.ahead .endInArray)
    | ']' :: rest => .ok ⟨[], ⟨rest, cursor.offset + 1⟩⟩
    | ',' :: rest =>
      let next := skipBlanks ⟨rest, cursor.offset + 1⟩
      match next.rest with
      | [] => .error (next.ahead .endInValue)
      | ']' :: _ => .error (next.ahead .trailingComma)
      | _ => do
        let ⟨first, after⟩ ← item next
        let ⟨others, after⟩ ← readItems item bound after
        return ⟨first :: others, after⟩
    | _ => .error (cursor.ahead .expectedItemEnd)

/-- Reads the items of an array after its opening bracket. -/
def readArray (item : Cursor → Except Failure (Parsed Value)) (cursor : Cursor) :
    Except Failure (Parsed (List Value)) :=
  let cursor := skipBlanks cursor
  match cursor.rest with
  | [] => .error (cursor.ahead .endInArray)
  | ']' :: rest => .ok ⟨[], ⟨rest, cursor.offset + 1⟩⟩
  | _ => do
    let ⟨first, after⟩ ← item cursor
    let ⟨others, after⟩ ← readItems item (after.rest.length + 1) after
    return ⟨first :: others, after⟩

/-- Reads an entry of an object after the opening quote of its key. -/
def readEntry (item : Cursor → Except Failure (Parsed Value)) (cursor : Cursor) :
    Except Failure (Parsed (String × Value)) := do
  let ⟨key, after⟩ ← readString [] cursor.offset cursor.rest
  let after := skipBlanks after
  match after.rest with
  | [] => .error (after.ahead .endInObject)
  | ':' :: rest =>
    let ⟨value, after⟩ ← item ⟨rest, after.offset + 1⟩
    return ⟨(key, value), after⟩
  | _ => .error (after.ahead .expectedColon)

/-- Reads the entries of an object after the first, up to and with the closing brace. -/
def readEntries (item : Cursor → Except Failure (Parsed Value)) :
    Nat → Cursor → Except Failure (Parsed (List (String × Value)))
  | 0, cursor => .error ⟨.endInObject, cursor.offset⟩
  | bound + 1, cursor =>
    let cursor := skipBlanks cursor
    match cursor.rest with
    | [] => .error (cursor.ahead .endInObject)
    | '}' :: rest => .ok ⟨[], ⟨rest, cursor.offset + 1⟩⟩
    | ',' :: rest =>
      let next := skipBlanks ⟨rest, cursor.offset + 1⟩
      match next.rest with
      | [] => .error (next.ahead .endInValue)
      | '}' :: _ => .error (next.ahead .trailingComma)
      | '"' :: rest => do
        let ⟨first, after⟩ ← readEntry item ⟨rest, next.offset + 1⟩
        let ⟨others, after⟩ ← readEntries item bound after
        return ⟨first :: others, after⟩
      | _ => .error (next.ahead .keyNotString)
    | _ => .error (cursor.ahead .expectedEntryEnd)

/-- Reads the entries of an object after its opening brace. -/
def readObject (item : Cursor → Except Failure (Parsed Value)) (cursor : Cursor) :
    Except Failure (Parsed (List (String × Value))) :=
  let cursor := skipBlanks cursor
  match cursor.rest with
  | [] => .error (cursor.ahead .endInObject)
  | '}' :: rest => .ok ⟨[], ⟨rest, cursor.offset + 1⟩⟩
  | '"' :: rest => do
    let ⟨first, after⟩ ← readEntry item ⟨rest, cursor.offset + 1⟩
    let ⟨others, after⟩ ← readEntries item (after.rest.length + 1) after
    return ⟨first :: others, after⟩
  | _ => .error (cursor.ahead .keyNotString)

/-! ### Values and texts -/

/-- The greatest number of arrays and objects that may be open at once. -/
def depthLimit : Nat := 127

/-- Reads a value in which `room` arrays and objects may be open at once. -/
def readValue (room : Nat) (cursor : Cursor) : Except Failure (Parsed Value) :=
  let cursor := skipBlanks cursor
  match cursor.rest with
  | [] => .error (cursor.ahead .endInValue)
  | 'n' :: rest => readWord .null ['u', 'l', 'l'] ⟨rest, cursor.offset + 1⟩
  | 't' :: rest => readWord (.bool true) ['r', 'u', 'e'] ⟨rest, cursor.offset + 1⟩
  | 'f' :: rest => readWord (.bool false) ['a', 'l', 's', 'e'] ⟨rest, cursor.offset + 1⟩
  | '"' :: rest => do
    let ⟨value, after⟩ ← readString [] (cursor.offset + 1) rest
    return ⟨.string value, after⟩
  | '-' :: rest => readNumber true ⟨rest, cursor.offset + 1⟩
  | '[' :: rest =>
    match room with
    | 0 => .error (cursor.ahead .tooDeep)
    | room + 1 => do
      let ⟨items, after⟩ ← readArray (readValue room) ⟨rest, cursor.offset + 1⟩
      return ⟨.array items, after⟩
  | '{' :: rest =>
    match room with
    | 0 => .error (cursor.ahead .tooDeep)
    | room + 1 => do
      let ⟨entries, after⟩ ← readObject (readValue room) ⟨rest, cursor.offset + 1⟩
      return ⟨.object (Fields.ofEntries entries), after⟩
  | c :: _ =>
    if isDigit c then readNumber false cursor else .error (cursor.ahead .expectedValue)

/-- Reads a text that is one value, with white space around it. -/
def readText (text : List Char) : Except Failure Value := do
  let ⟨value, after⟩ ← readValue depthLimit ⟨text, 0⟩
  let after := skipBlanks after
  match after.rest with
  | [] => return value
  | _ => .error (after.ahead .trailingCharacters)

/-- The line and column of the place with `offset` bytes before it. -/
def place (line column : Nat) (offset : Nat) : List Char → Nat × Nat
  | [] => (line, column + offset)
  | c :: rest =>
    if offset = 0 then (line, column)
    else if offset < c.utf8Size then (line, column + offset)
    else if c = '\n' then place (line + 1) 0 (offset - c.utf8Size) rest
    else place line (column + c.utf8Size) (offset - c.utf8Size) rest

/-- The value that a text denotes, or its first fault. -/
def read (text : String) : Except ReadError Value :=
  match readText text.toList with
  | .ok value => .ok value
  | .error failure =>
    let (line, column) := place 1 0 failure.offset text.toList
    .error ⟨failure.fault, line, column⟩

end FlowDesugar.Json
