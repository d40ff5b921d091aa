import FlowDesugar.Json.Value

/-!
# Writing JSON

A value is written over several lines: two spaces for each level, one item or entry to a line, and
empty arrays and objects on one. Strings escape the quote, the backslash and the control characters
below `0x20`; every other character stands for itself.
-/

namespace FlowDesugar.Json

/-- A hexadecimal digit in lower case. -/
def hexDigit (n : Nat) : Char :=
  (Nat.digitChar n)

/-- How a character is written in a string. -/
def escapeChar (c : Char) : List Char :=
  match c with
  | '"' => ['\\', '"']
  | '\\' => ['\\', '\\']
  | '\x08' => ['\\', 'b']
  | '\x0c' => ['\\', 'f']
  | '\n' => ['\\', 'n']
  | '\r' => ['\\', 'r']
  | '\t' => ['\\', 't']
  | c =>
    if c.toNat < 0x20 then ['\\', 'u', '0', '0', hexDigit (c.toNat / 16), hexDigit (c.toNat % 16)]
    else [c]

/-- A string between its quotes. -/
def quoted (s : String) : List Char :=
  '"' :: s.toList.flatMap escapeChar ++ ['"']

/-- The start of a line at a level. -/
def newline (level : Nat) : List Char :=
  '\n' :: List.replicate (2 * level) ' '

mutual

/-- The text of a value that starts at a level. -/
def Value.lines (level : Nat) : Value → List Char
  | .null => ['n', 'u', 'l', 'l']
  | .bool true => ['t', 'r', 'u', 'e']
  | .bool false => ['f', 'a', 'l', 's', 'e']
  | .number value => value.text.toList
  | .string value => quoted value
  | .array [] => ['[', ']']
  | .array items => '[' :: itemLines (level + 1) items ++ newline level ++ [']']
  | .object [] => ['{', '}']
  | .object fields => '{' :: fieldLines (level + 1) fields ++ newline level ++ ['}']

/-- The lines of the items of an array. -/
def itemLines (level : Nat) : List Value → List Char
  | [] => []
  | [item] => newline level ++ item.lines level
  | item :: items => newline level ++ item.lines level ++ ',' :: itemLines level items

/-- The lines of the fields of an object. -/
def fieldLines (level : Nat) : List (String × Value) → List Char
  | [] => []
  | [(key, value)] => newline level ++ quoted key ++ ':' :: ' ' :: value.lines level
  | (key, value) :: fields =>
    newline level ++ quoted key ++ ':' :: ' ' :: value.lines level ++ ',' :: fieldLines level fields

end

/-- The text of a value, ended by a newline. -/
def write (value : Value) : String :=
  String.ofList (value.lines 0 ++ ['\n'])

end FlowDesugar.Json
