/-!
# Lines and padding

Lines end at line feeds and nowhere else, so a text with `k` line feeds has `k + 1` lines, the last
of which may be empty.
-/

namespace FlowDesugar.Text

/-- The number of bytes of a text in UTF-8. -/
def byteCount : List Char → Nat
  | [] => 0
  | c :: cs => c.utf8Size + byteCount cs

/-- The pieces of a text between the places where `mark` stands. There is always one. -/
def splitAt (mark : Char) : List Char → List (List Char)
  | [] => [[]]
  | c :: cs =>
    if c = mark then [] :: splitAt mark cs
    else match splitAt mark cs with
      | [] => [[c]]
      | piece :: pieces => (c :: piece) :: pieces

theorem splitAt_eq_splitOn (mark : Char) (cs : List Char) : splitAt mark cs = cs.splitOn mark := by
  induction cs with
  | nil => rw [List.splitOn_nil, splitAt]
  | cons c cs ih =>
    rw [splitAt, List.splitOn_cons_eq_if_modifyHead, ih]
    simp only [beq_iff_eq]
    split
    · rfl
    · -- there is a first piece, which the character goes to
      cases h : cs.splitOn mark with
      | nil => exact absurd h (List.splitOn_ne_nil mark cs)
      | cons piece pieces => rfl

/-- The lines of a text, without their line feeds. -/
def splitLines (cs : List Char) : List (List Char) :=
  splitAt '\n' cs

/-- The lines of a text that is a list of lines: a line feed at its end opens no further line, and a
carriage return before a line feed belongs to the line's end. -/
def noteLines (cs : List Char) : List (List Char) :=
  let lines := splitLines cs
  let ended := lines.dropLast.map fun line =>
    if line.getLast? = some '\r' then line.dropLast else line
  match lines.getLast? with
  | none | some [] => ended
  | some last => ended ++ [last]

/-- A text filled up with blanks on the right to `width` characters. -/
def padRight (width : Nat) (text : String) : String :=
  text ++ String.ofList (List.replicate (width - text.length) ' ')

/-- A text filled up with `fill` on the left to `width` characters. -/
def padLeft (fill : Char) (width : Nat) (text : String) : String :=
  String.ofList (List.replicate (width - text.length) fill) ++ text

end FlowDesugar.Text
