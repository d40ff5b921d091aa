import FlowDesugar.Definition
import FlowDesugar.Text.Blank
import FlowDesugar.Text.Lines

/-!
# Source texts

The script a tree was made from, if it is at hand, lets a diagnostic point to the text it is about.
A position names a line and a character of it, both counted from one; the label of a position runs
from that character to the end of the line's text, without trailing white space.

A position outside the text yields no label: the diagnostic then names the position in a note,
unless the position is not known, which its line zero says.
-/

namespace FlowDesugar

/-- A source text with the name it goes by. -/
structure SourceText where
  name : String
  content : String
deriving DecidableEq, Repr

/-- A line of a source text: the bytes before it, and its characters up to the line feed. -/
structure SourceLine where
  start : Nat
  chars : List Char
deriving DecidableEq, Repr

namespace SourceText

/-- Lines with their places, the first of which starts at byte `start`. -/
def linesFrom (start : Nat) : List (List Char) → List SourceLine
  | [] => []
  | chars :: lines => ⟨start, chars⟩ :: linesFrom (start + Text.byteCount chars + 1) lines

/-- The lines of a source text. -/
def lines (source : SourceText) : List SourceLine :=
  linesFrom 0 (Text.splitLines source.content.toList)

/-- A line by its number, counted from one. -/
def line? (source : SourceText) : Nat → Option SourceLine
  | 0 => none
  | index + 1 => source.lines[index]?

/-- The range of a position: from its character to the end of the line's text. A column beyond the
text gives the empty range at its end. -/
def span? (source : SourceText) (position : Position) : Option Label :=
  (source.line? position.line.toNat).map fun line =>
    let text := Text.trimEnd line.chars
    let skipped := text.take (position.column.toNat - 1)
    ⟨line.start + Text.byteCount skipped, line.start + Text.byteCount text⟩

end SourceText

/-- Points a diagnostic to a position. -/
def Diagnostic.pointTo (source : Option SourceText) (diagnostic : Diagnostic)
    (position : Position) : Diagnostic :=
  match source.bind (·.span? position) with
  | some label => diagnostic.withLabel label
  | none =>
    if position.line = 0 then diagnostic else diagnostic.withNote ("at " ++ position.text)

/-- The diagnostic of a report. -/
def Report.diagnostic (source : Option SourceText) (report : Report) : Diagnostic :=
  Diagnostic.pointTo source { message := report.message } ⟨report.line, report.column⟩

end FlowDesugar
