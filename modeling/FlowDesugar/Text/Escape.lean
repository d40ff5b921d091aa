/-!
# Text between double quotes

A quoted text escapes the quote, the backslash, the newline and the tab, and, where expressions can
be interpolated, the dollar sign. `unescape` reads either form back.
-/

namespace FlowDesugar.Text

/-- How a character is written between double quotes. -/
def escapeChar (interpolating : Bool) : Char → List Char
  | '"' => ['\\', '"']
  | '\\' => ['\\', '\\']
  | '\n' => ['\\', 'n']
  | '\t' => ['\\', 't']
  | '$' => if interpolating then ['\\', '$'] else ['$']
  | c => [c]

/-- How a text is written between double quotes. -/
def escape (interpolating : Bool) (cs : List Char) : List Char :=
  cs.flatMap (escapeChar interpolating)

/-- The character that a letter after a backslash stands for. -/
def unescapeChar : Char → Char
  | 'n' => '\n'
  | 't' => '\t'
  | c => c

/-- The text that is written between double quotes; none if it ends within an escape. -/
def unescape : List Char → Option (List Char)
  | [] => some []
  | ['\\'] => none
  | '\\' :: c :: rest => (unescape rest).map (unescapeChar c :: ·)
  | c :: rest => (unescape rest).map (c :: ·)

end FlowDesugar.Text
