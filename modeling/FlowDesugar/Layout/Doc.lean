import FlowDesugar.Text.Cluster

/-!
# Page layout

A document is text with choices of where to break lines. A `line` is a newline where its group is
broken and a space where it is flat; a `hardline` is always a newline. `Doc.page` lays a document
out for a page of a given width: a group is laid out flat if it *fits*, that is, if what it holds,
followed by what comes after it up to the next newline, stays within the width.

Rendering follows the document. What comes after a part enters as a test, `after`, which says of a
column whether the rest of the line fits from there on.
-/

namespace FlowDesugar

/-- A document to lay out. -/
inductive Doc where
  | nil
  | text (value : String)
  | line
  | hardline
  | append (left right : Doc)
  /-- Indents the lines that begin inside it. -/
  | nest (depth : Nat) (inner : Doc)
  /-- Its lines are all broken or, if it fits, all flat. -/
  | group (inner : Doc)
deriving DecidableEq, Repr

/-- How the lines of a group are laid out. -/
inductive Mode where
  | flat
  | broken
deriving DecidableEq, Repr

/-- The columns of a text: its characters if they are all ASCII, otherwise its grapheme clusters. -/
def Text.columns (text : String) : Nat :=
  let chars := text.toList
  if chars.all (·.toNat < 128) then chars.length else Text.clusterCount chars

namespace Doc

instance : Append Doc := ⟨append⟩

/-- Documents one after another. -/
def concat : List Doc → Doc
  | [] => nil
  | doc :: docs => doc ++ concat docs

/-- Documents one after another with a separator between them. -/
def intersperse (separator : Doc) : List Doc → Doc
  | [] => nil
  | [doc] => doc
  | doc :: docs => doc ++ separator ++ intersperse separator docs

/-- Whether a document fits on the rest of the line, from a column on, when what comes after it
passes the test `after`. Flat, a hard line does not fit; broken, a newline ends the line and the
test. -/
def fits (width : Nat) (mode : Mode) : Doc → (Nat → Bool) → Nat → Bool
  | nil, after, column => after column
  | text value, after, column =>
    let column := column + Text.columns value
    column ≤ width && after column
  | line, after, column =>
    match mode with
    | .flat => column + 1 ≤ width && after (column + 1)
    | .broken => true
  | hardline, _, _ => mode = .broken
  | append left right, after, column => left.fits width mode (right.fits width mode after) column
  | nest _ inner, after, column => inner.fits width mode after column
  | group inner, after, column => inner.fits width mode after column

/-- A newline and the indentation of the next line. -/
def newline (indent : Nat) : List Char :=
  '\n' :: List.replicate indent ' '

/-- Lays a document out from a column on; gives its text and the column after it. -/
def render (width : Nat) : Doc → Mode → Nat → (Nat → Bool) → Nat → List Char × Nat
  | nil, _, _, _, column => ([], column)
  | text value, _, _, _, column => (value.toList, column + Text.columns value)
  | line, .flat, _, _, column => ([' '], column + 1)
  | line, .broken, indent, _, _ => (newline indent, indent)
  | hardline, _, indent, _, _ => (newline indent, indent)
  | append left right, mode, indent, after, column =>
    let (first, column) := left.render width mode indent (right.fits width .broken after) column
    let (second, column) := right.render width mode indent after column
    (first ++ second, column)
  | nest depth inner, mode, indent, after, column =>
    inner.render width mode (indent + depth) after column
  | group inner, .flat, indent, after, column => inner.render width .flat indent after column
  | group inner, .broken, indent, after, column =>
    if inner.fits width .flat after column then inner.render width .flat indent after column
    else inner.render width .broken indent after column

/-- A document laid out for a page, ended by a newline. -/
def page (width : Nat) (doc : Doc) : String :=
  String.ofList ((doc ++ line).render width .broken 0 (fun _ => true) 0).1

/-- The width of a page unless another is asked for. -/
def pageWidth : Nat := 80

end Doc

end FlowDesugar
