import FlowDesugar.Text.CodePoints

/-!
# White space

The white space characters of all scripts, and texts without their trailing white space.
-/

namespace FlowDesugar.Text

/-- The white space characters. -/
def blanks : CodePoints :=
  [(0x9, 0xD), (0x20, 0x20), (0x85, 0x85), (0xA0, 0xA0), (0x1680, 0x1680), (0x2000, 0x200A),
   (0x2028, 0x2029), (0x202F, 0x202F), (0x205F, 0x205F), (0x3000, 0x3000)]

/-- Whether a character is white space. -/
def isBlank (c : Char) : Bool :=
  blanks.has c.toNat

/-- A text without the characters at its end that satisfy a test. -/
def dropEnd (test : Char → Bool) (cs : List Char) : List Char :=
  (cs.reverse.dropWhile test).reverse

/-- A text without its trailing white space. -/
def trimEnd (cs : List Char) : List Char :=
  dropEnd isBlank cs

end FlowDesugar.Text
