import FlowDesugar.SourceText
import FlowDesugar.Text.Width

/-!
# Diagnostics as text

A diagnostic with a label shows the source line and underlines the label with carets:

    error: process must terminate with a script
      ┌─ main.nf:4:3
      │
    4 │   process foo {
      │   ^^^^^^^^^^^^^
      │
      = a note

Without a label there is the message and the notes. An empty line ends every diagnostic.
-/

namespace FlowDesugar.Diagnostic

/-- A tab goes to the next column that is a multiple of this. -/
def tabWidth : Nat := 4

/-- A character of a source line: the byte it starts at, counted from the start of the line, its
bytes, and its columns. -/
structure Cell where
  char : Char
  start : Nat
  size : Nat
  width : Nat

/-- The characters of a source line, the first of which starts at byte `start` in column `column`.
-/
def cells (start column : Nat) : List Char → List Cell
  | [] => []
  | c :: cs =>
    let width := if c = '\t' then tabWidth - column % tabWidth else Text.charWidth c
    ⟨c, start, c.utf8Size, width⟩ :: cells (start + c.utf8Size) (column + width) cs

/-- A source line as it is shown: tabs as blanks. -/
def sourceRow (cells : List Cell) : List Char :=
  cells.flatMap fun cell => if cell.char = '\t' then List.replicate cell.width ' ' else [cell.char]

/-- The row under a source line. A character with bytes in the range is underlined; the row ends
with the range. -/
def caretRow (range : Label) (cells : List Cell) : List Char :=
  cells.flatMap fun cell =>
    if max cell.start range.start < min (cell.start + cell.size) range.stop then
      List.replicate cell.width '^'
    else if cell.start < range.stop then List.replicate cell.width ' '
    else []

/-- The line of a source text that a byte is in, with its number. -/
def lineAt (source : SourceText) (offset : Nat) : Nat × SourceLine :=
  let before := source.lines.filter fun line => line.start ≤ offset
  (before.length, before.getLast?.getD ⟨0, []⟩)

/-- A note, with `gutter` before each of its lines. -/
def noteText (gutter : String) (note : String) : String :=
  match Text.noteLines note.toList with
  | [] => ""
  | first :: rest =>
    gutter ++ " = " ++ String.ofList first ++ "\n"
      ++ String.join (rest.map fun line => gutter ++ "   " ++ String.ofList line ++ "\n")

/-- The characters that end a source line and are not shown. -/
def isLineEnd (c : Char) : Bool :=
  c = '\n' || c = '\r' || c = '\x00'

/-- A label with the source line it is in. An empty label is shown as one byte long, and a label at
the end of the line is underlined there. -/
def snippet (source : SourceText) (label : Label) (number : Nat) (line : SourceLine) : String :=
  let numberText := Number.naturalText number
  let gutter := Text.padLeft ' ' numberText.length ""
  let shown := Text.dropEnd isLineEnd line.chars
  let start := label.start - line.start
  let range : Label := ⟨start, max (label.stop - line.start) (start + 1)⟩
  let cells := cells 0 0 shown
  let column := ((Diagnostic.cells 0 0 line.chars).filter fun cell => cell.start < start).length + 1
  let lineEnd : Cell := ⟨' ', Text.byteCount shown, 1, 1⟩
  gutter ++ " ┌─ " ++ source.name ++ ":" ++ numberText ++ ":" ++ Number.naturalText column ++ "\n"
    ++ gutter ++ " │\n"
    ++ numberText ++ " │ " ++ String.ofList (sourceRow cells) ++ "\n"
    ++ gutter ++ " │ " ++ String.ofList (caretRow range (cells ++ [lineEnd])) ++ "\n"

/-- A diagnostic as text. -/
def render (source : Option SourceText) (diagnostic : Diagnostic) : String :=
  let (shown, gutter) := match source, diagnostic.label with
    | some source, some label =>
      let (number, line) := lineAt source label.start
      let gutter := Text.padLeft ' ' (Number.naturalText number).length ""
      let rule := if diagnostic.notes.isEmpty then "" else gutter ++ " │\n"
      (snippet source label number line ++ rule, gutter)
    | _, _ => ("", "")
  "error: " ++ diagnostic.message ++ "\n" ++ shown
    ++ String.join (diagnostic.notes.map (noteText gutter)) ++ "\n"

end FlowDesugar.Diagnostic
