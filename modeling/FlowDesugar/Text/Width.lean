import FlowDesugar.Text.Width.Table

/-!
# Columns

How many columns a character takes on a screen: none for controls and combining marks, two for wide
characters, three for the sign *beyyal*, which is drawn as three letters, one for all others.
-/

namespace FlowDesugar.Text

/-- The number of columns of a character. -/
def charWidth (c : Char) : Nat :=
  let code := c.toNat
  if code < 0x20 ∨ (0x7F ≤ code ∧ code < 0xA0) then 0
  else if code < 0x7F then 1
  else if Width.zero.has code then 0
  else if Width.wide.has code then 2
  else if code = 0x17D8 then 3
  else 1

end FlowDesugar.Text
