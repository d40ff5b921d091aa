import FlowDesugar.Tree.Surface

/-!
# What a document says

`Doc.letters` are the texts of a document, one after another, without regard to where its lines are
broken. A document that has no lines to break (`Doc.IsInline`) is laid out as its letters, whatever
the width of the page (`Doc.page_of_isInline`).
-/

namespace FlowDesugar.Doc

/-- The texts of a document, one after another. -/
def letters : Doc → List Char
  | nil => []
  | text value => value.toList
  | line => []
  | hardline => []
  | append left right => left.letters ++ right.letters
  | nest _ inner => inner.letters
  | group inner => inner.letters

@[simp] theorem letters_append (left right : Doc) :
    (left ++ right).letters = left.letters ++ right.letters := rfl

/-- There are no lines to break. -/
def IsInline : Doc → Prop
  | nil => True
  | text _ => True
  | line => False
  | hardline => False
  | append left right => left.IsInline ∧ right.IsInline
  | nest _ inner => inner.IsInline
  | group inner => inner.IsInline

/-- The right part is laid out behind the left one. -/
theorem render_append (width : Nat) (left right : Doc) (mode : Mode) (indent : Nat)
    (after : Nat → Bool) (column : Nat) :
    ((left ++ right).render width mode indent after column).1
      = (left.render width mode indent (right.fits width .broken after) column).1
        ++ (right.render width mode indent after
            (left.render width mode indent (right.fits width .broken after) column).2).1 :=
  rfl

/-- A page holds the document, with a newline behind it, as if nothing came after. -/
theorem page_eq (width : Nat) (doc : Doc) :
    doc.page width
      = String.ofList ((doc.render width .broken 0 (fun _ => true) 0).1 ++ ['\n']) :=
  rfl

theorem render_of_isInline (width : Nat) {doc : Doc} (h : doc.IsInline) (mode : Mode)
    (indent : Nat) (after : Nat → Bool) (column : Nat) :
    (doc.render width mode indent after column).1 = doc.letters := by
  -- a part is laid out with the room that is left by what follows it, so the test is general
  induction doc generalizing mode indent after column with
  | nil => rfl
  | text value => rfl
  | line => exact h.elim
  | hardline => exact h.elim
  | append left right ihLeft ihRight =>
    simp only [render, letters, ihLeft h.1, ihRight h.2]
  | nest depth inner ih => exact ih h ..
  | group inner ih =>
    cases mode with
    | flat => exact ih h ..
    | broken =>
      rw [render]
      split
      · exact ih h ..
      · exact ih h ..

/-- **Without lines to break**, a page holds the letters of its document and a newline. -/
theorem page_of_isInline (width : Nat) {doc : Doc} (h : doc.IsInline) :
    doc.page width = String.ofList (doc.letters ++ ['\n']) := by
  have hletters := render_of_isInline width h .broken 0 (line.fits width .broken fun _ => true) 0
  exact congrArg (fun cs => String.ofList (cs ++ ['\n'])) hletters

end FlowDesugar.Doc
