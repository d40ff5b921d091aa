import Mathlib.Data.List.Forall2
import FlowDesugar.Proofs.Letters

/-!
# Layout and content

A layout puts blanks and newlines between the letters of a document and nothing else. The *ink* of a
text is what is left of it without them (`Text.ink`), and the ink of a page is that of the letters
of its document, whatever the width (`Doc.ink_page`).

A hard line inside a group forces the group to be broken (`Doc.IsForced`): no width makes it fit on
one line, whatever comes after it (`Doc.not_fits_of_isForced`). The same holds of all groups around
it, so that a forced document inside a larger one is always laid out broken, between what the larger
one has in front of it and behind it (`Doc.Holds.laidIn`). For a block of at least two statements
between braces this means a line for each statement (`Doc.render_braced`).
-/

namespace FlowDesugar

/-- A text without its blanks and newlines. -/
def Text.ink (cs : List Char) : List Char :=
  cs.filter fun c => c ≠ ' ' ∧ c ≠ '\n'

namespace Text

@[simp] theorem ink_append (cs ds : List Char) : ink (cs ++ ds) = ink cs ++ ink ds :=
  List.filter_append ..

@[simp] theorem ink_newline (indent : Nat) : ink (Doc.newline indent) = [] := by
  unfold ink Doc.newline
  rw [List.filter_cons_of_neg (by simp), List.filter_replicate_of_neg (by simp)]

end Text

namespace Doc

/-! ### What is on a page -/

/-- **A layout adds no ink.** -/
theorem ink_render (width : Nat) (doc : Doc) (mode : Mode) (indent : Nat) (after : Nat → Bool)
    (column : Nat) :
    Text.ink (doc.render width mode indent after column).1 = Text.ink doc.letters := by
  -- a group is laid out in one of two modes, so the mode is general; so is what comes after a part
  induction doc generalizing mode indent after column with
  | nil => rfl
  | text value => rfl
  | line =>
    cases mode with
    | flat => rfl
    | broken => exact Text.ink_newline indent
  | hardline => exact Text.ink_newline indent
  | append left right ihLeft ihRight =>
    have hrender := render_append width left right mode indent after column
    refine (congrArg Text.ink hrender).trans ?_
    rw [Text.ink_append, ihLeft, ihRight]
    exact (Text.ink_append ..).symm
  | nest depth inner ih => exact ih ..
  | group inner ih =>
    cases mode with
    | flat => exact ih ..
    | broken =>
      rw [render]
      split
      · exact ih ..
      · exact ih ..

theorem ink_page (width : Nat) (doc : Doc) :
    Text.ink (doc.page width).toList = Text.ink doc.letters := by
  rw [page_eq, String.toList_ofList, Text.ink_append, ink_render]
  exact List.append_nil _

/-! ### Forced breaks -/

/-- There is a hard line in the document. -/
def IsForced : Doc → Prop
  | nil => False
  | text _ => False
  | line => False
  | hardline => True
  | append left right => left.IsForced ∨ right.IsForced
  | nest _ inner => inner.IsForced
  | group inner => inner.IsForced

/-- Flat, a document fits only if what comes after it does: there is no newline before that. -/
theorem not_fits_of_after (width : Nat) (doc : Doc) {after : Nat → Bool}
    (h : ∀ column, after column = false) (column : Nat) :
    doc.fits width .flat after column = false := by
  induction doc generalizing after column with
  | nil => exact h column
  | text value => simp [fits, h]
  | line => simp [fits, h]
  | hardline => rfl
  | append left right ihLeft ihRight => exact ihLeft (fun column => ihRight h column) column
  | nest depth inner ih => exact ih h column
  | group inner ih => exact ih h column

/-- **A hard line never fits on one line.** -/
theorem not_fits_of_isForced (width : Nat) {doc : Doc} (h : doc.IsForced) (after : Nat → Bool)
    (column : Nat) : doc.fits width .flat after column = false := by
  induction doc generalizing after column with
  | nil => exact h.elim
  | text value => exact h.elim
  | line => exact h.elim
  | hardline => rfl
  | append left right ihLeft ihRight =>
    cases h with
    | inl h => exact ihLeft h _ column
    | inr h =>
      -- the test of the right part fails from every column, so it fails behind the left part
      exact not_fits_of_after width left (fun column => ihRight h after column) column
  | nest depth inner ih => exact ih h after column
  | group inner ih => exact ih h after column

theorem render_group_of_isForced (width : Nat) {doc : Doc} (h : doc.IsForced) (indent : Nat)
    (after : Nat → Bool) (column : Nat) :
    (group doc).render width .broken indent after column
      = doc.render width .broken indent after column := by
  rw [render, not_fits_of_isForced width h, if_neg (by simp)]

/-! ### Documents inside documents -/

/-- `inner.Holds before doc behind`: the document `inner` stands in `doc`, with the letters `before`
in front of it and the letters `behind` after it. -/
inductive Holds (inner : Doc) : List Char → Doc → List Char → Prop
  | here : Holds inner [] inner []
  | left {before left behind} (right : Doc) :
      Holds inner before left behind → Holds inner before (left ++ right) (behind ++ right.letters)
  | right {before right behind} (left : Doc) :
      Holds inner before right behind → Holds inner (left.letters ++ before) (left ++ right) behind
  | nest {before doc behind} (depth : Nat) :
      Holds inner before doc behind → Holds inner before (nest depth doc) behind
  | group {before doc behind} :
      Holds inner before doc behind → Holds inner before (group doc) behind

namespace Holds

variable {inner doc : Doc} {before behind : List Char}

theorem trans (h : inner.Holds before doc behind) {outer : Doc} {before' behind' : List Char}
    (houter : doc.Holds before' outer behind') :
    inner.Holds (before' ++ before) outer (behind ++ behind') := by
  induction houter with
  | here => rwa [List.nil_append, List.append_nil]
  | left right _ ih =>
    rw [← List.append_assoc]
    exact ih.left right
  | right left _ ih =>
    rw [List.append_assoc]
    exact ih.right left
  | nest depth _ ih => exact ih.nest depth
  | group _ ih => exact ih.group

theorem isForced (h : inner.Holds before doc behind) (hforced : inner.IsForced) :
    doc.IsForced := by
  induction h with
  | here => exact hforced
  | left _ _ ih => exact .inl ih
  | right _ _ ih => exact .inr ih
  | nest _ _ ih => exact ih
  | group _ ih => exact ih

end Holds

/-- The text holds a layout of the document, all groups around it being broken, and the rest of the
text has the ink of `before` and `behind`. -/
def LaidIn (width : Nat) (doc : Doc) (before text behind : List Char) : Prop :=
  ∃ front back indent after column,
    text = front ++ (doc.render width .broken indent after column).1 ++ back
      ∧ Text.ink front = Text.ink before ∧ Text.ink back = Text.ink behind

namespace LaidIn

variable {width : Nat} {doc : Doc} {before text behind : List Char}

theorem append (h : doc.LaidIn width before text behind) {more letters : List Char}
    (hmore : Text.ink more = Text.ink letters) :
    doc.LaidIn width before (text ++ more) (behind ++ letters) := by
  obtain ⟨front, back, indent, after, column, rfl, hfront, hback⟩ := h
  refine ⟨front, back ++ more, indent, after, column, List.append_assoc .., hfront, ?_⟩
  rw [Text.ink_append, Text.ink_append, hback, hmore]

theorem prepend (h : doc.LaidIn width before text behind) {more letters : List Char}
    (hmore : Text.ink more = Text.ink letters) :
    doc.LaidIn width (letters ++ before) (more ++ text) behind := by
  obtain ⟨front, back, indent, after, column, rfl, hfront, hback⟩ := h
  refine ⟨more ++ front, back, indent, after, column, ?_, ?_, hback⟩
  · simp only [List.append_assoc]
  · rw [Text.ink_append, Text.ink_append, hfront, hmore]

end LaidIn

/-- **A forced document is laid out broken**, wherever it stands. -/
theorem Holds.laidIn {inner doc : Doc} {before behind : List Char}
    (h : inner.Holds before doc behind) (hforced : inner.IsForced) (width indent : Nat)
    (after : Nat → Bool) (column : Nat) :
    inner.LaidIn width before (doc.render width .broken indent after column).1 behind := by
  induction h generalizing indent after column with
  | here =>
    refine ⟨[], [], indent, after, column, ?_, rfl, rfl⟩
    rw [List.nil_append, List.append_nil]
  | left right _ ih =>
    rw [render_append]
    exact (ih ..).append (ink_render ..)
  | right left _ ih =>
    rw [render_append]
    exact (ih ..).prepend (ink_render ..)
  | nest depth _ ih => exact ih (indent + depth) after column
  | group hheld ih =>
    -- the hard line of the inner document is one of this group as well
    rw [render_group_of_isForced width (hheld.isForced hforced)]
    exact ih indent after column

theorem Holds.laidIn_page {inner doc : Doc} {before behind : List Char}
    (h : inner.Holds before doc behind) (hforced : inner.IsForced) (width : Nat) :
    inner.LaidIn width before (doc.page width).toList behind := by
  rw [page_eq, String.toList_ofList, ← List.append_nil behind]
  exact (h.laidIn hforced width 0 (fun _ => true) 0).append rfl

/-! ### Documents around documents -/

/-- `around` puts letters in front of a document and behind it that do not depend on the
document. -/
def Encloses (around : Doc → Doc) : Prop :=
  ∃ front back, ∀ doc : Doc, doc.Holds front (around doc) back

namespace Encloses

variable {around outer : Doc → Doc}

theorem here : Encloses fun doc => doc :=
  ⟨[], [], fun _ => .here⟩

theorem left (h : Encloses around) (right : Doc) : Encloses fun doc => around doc ++ right := by
  obtain ⟨front, back, hheld⟩ := h
  exact ⟨front, back ++ right.letters, fun doc => (hheld doc).left right⟩

theorem right (left : Doc) (h : Encloses around) : Encloses fun doc => left ++ around doc := by
  obtain ⟨front, back, hheld⟩ := h
  exact ⟨left.letters ++ front, back, fun doc => (hheld doc).right left⟩

theorem comp (houter : Encloses outer) (h : Encloses around) :
    Encloses fun doc => outer (around doc) := by
  obtain ⟨front, back, hheld⟩ := h
  obtain ⟨front', back', hheld'⟩ := houter
  exact ⟨front' ++ front, back ++ back', fun doc => (hheld doc).trans (hheld' (around doc))⟩

theorem concat (before behind : List Doc) :
    Encloses fun doc => Doc.concat (before ++ doc :: behind) := by
  induction before with
  | nil => exact here.left _
  | cons first before ih => exact ih.right first

theorem intersperse (separator : Doc) (before behind : List Doc) :
    Encloses fun doc => Doc.intersperse separator (before ++ doc :: behind) := by
  induction before with
  | nil =>
    cases behind with
    | nil => exact here
    | cons next behind => exact (here.left separator).left _
  | cons first before ih =>
    obtain ⟨front, back, hheld⟩ := ih.right (first ++ separator)
    refine ⟨front, back, fun doc => ?_⟩
    -- there is another document behind the first, so a separator follows it
    have hcons : Doc.intersperse separator (first :: (before ++ doc :: behind))
        = first ++ separator ++ Doc.intersperse separator (before ++ doc :: behind) := by
      cases before <;> rfl
    change doc.Holds front (Doc.intersperse separator (first :: (before ++ doc :: behind))) back
    rw [hcons]
    exact hheld doc

end Encloses

/-! ### Lines -/

/-- Behind a hard line the layout starts anew, and in front of it there is room enough. -/
theorem render_append_hardline (width : Nat) (doc rest : Doc) (indent : Nat) (after : Nat → Bool)
    (column : Nat) :
    ((doc ++ hardline ++ rest).render width .broken indent after column).1
      = (doc.render width .broken indent (fun _ => true) column).1 ++ newline indent
        ++ (rest.render width .broken indent after indent).1 :=
  rfl

/-- Documents with hard lines between them have a line each. -/
theorem render_intersperse_hardline (width : Nat) (docs : List Doc) (indent : Nat)
    (after : Nat → Bool) (column : Nat) :
    ∃ lines, ((intersperse hardline docs).render width .broken indent after column).1
        = (newline indent).intercalate lines
      ∧ List.Forall₂ (fun doc line => Text.ink line = Text.ink doc.letters) docs lines := by
  induction docs generalizing column with
  | nil => exact ⟨[], rfl, .nil⟩
  | cons doc docs ih =>
    cases docs with
    | nil =>
      refine ⟨[(doc.render width .broken indent after column).1], ?_, .cons ?_ .nil⟩
      · simp [intersperse, List.intercalate]
      · exact ink_render ..
    | cons next docs =>
      obtain ⟨lines, hlines, hink⟩ := ih indent
      refine ⟨(doc.render width .broken indent (fun _ => true) column).1 :: lines, ?_,
        .cons (ink_render ..) hink⟩
      cases hink with
      | cons _ _ =>
        rw [intersperse, render_append_hardline, hlines]
        · simp [List.intercalate]
        · simp

/-! ### Blocks between braces -/

end Doc

/-- What a block between braces begins with. -/
def Text.openBrace : List String → List Char
  | [] => ['{']
  | params => ['{', ' '] ++ (String.intercalate ", " params).toList ++ [' ', '-', '>']

/-- Lines between braces, each behind a newline and two blanks further to the right than the closing
brace, which has a line of its own. -/
def Text.brokenBraces (params : List String) (indent : Nat) (lines : List (List Char)) :
    List Char :=
  openBrace params ++ Doc.newline (indent + 2) ++ (Doc.newline (indent + 2)).intercalate lines
    ++ Doc.newline indent ++ ['}']

namespace Doc

/-- The parts of a block between braces. -/
theorem exists_braced_eq (params : List String) (first : Doc) (docs : List Doc) :
    ∃ start : Doc, braced params (first :: docs)
        = group (start ++ nest 2 (line ++ intersperse hardline (first :: docs)) ++ line
            ++ text "\x7d")
      ∧ start.IsInline ∧ start.letters = Text.openBrace params := by
  cases params with
  | nil => exact ⟨_, rfl, trivial, rfl⟩
  | cons param params => exact ⟨_, rfl, ⟨⟨trivial, trivial⟩, trivial⟩, rfl⟩

theorem holds_braced (params : List String) (first : Doc) (docs : List Doc) :
    (intersperse hardline (first :: docs)).Holds (Text.openBrace params)
      (braced params (first :: docs)) ['}'] := by
  obtain ⟨start, heq, -, hletters⟩ := exists_braced_eq params first docs
  have hbody : (intersperse hardline (first :: docs)).Holds []
      (nest 2 (line ++ intersperse hardline (first :: docs))) [] := (Holds.here.right line).nest 2
  rw [heq, ← hletters, ← List.append_nil start.letters]
  exact (((hbody.right start).left line).left (text "\x7d")).group

theorem Encloses.braced (params : List String) (before behind : List Doc) :
    Encloses fun doc => Doc.braced params (before ++ doc :: behind) := by
  obtain ⟨front, back, hheld⟩ := Encloses.intersperse hardline before behind
  refine ⟨Text.openBrace params ++ front, back ++ ['}'], fun doc => ?_⟩
  have hstmts : ∃ first docs, before ++ doc :: behind = first :: docs :=
    List.exists_cons_of_ne_nil (by simp)
  obtain ⟨first, docs, heq⟩ := hstmts
  have hdoc := hheld doc
  simp only [heq] at hdoc ⊢
  exact hdoc.trans (holds_braced params first docs)

/-- **At least two statements** between braces force a break. -/
theorem isForced_braced (params : List String) {docs : List Doc} (h : 2 ≤ docs.length) :
    (braced params docs).IsForced := by
  match docs, h with
  | first :: second :: docs, _ =>
    obtain ⟨start, heq, -, -⟩ := exists_braced_eq params first (second :: docs)
    -- the hard line is behind the first statement
    have hstmts : (intersperse hardline (first :: second :: docs)).IsForced := .inl (.inr trivial)
    rw [heq]
    exact .inl (.inl (.inr (.inr hstmts)))

/-- **Statements between braces**, if there are at least two, have a line each. -/
theorem render_braced (width : Nat) (params : List String) {docs : List Doc}
    (h : 2 ≤ docs.length) (indent : Nat) (after : Nat → Bool) (column : Nat) :
    ∃ lines, ((braced params docs).render width .broken indent after column).1
        = Text.brokenBraces params indent lines
      ∧ List.Forall₂ (fun doc line => Text.ink line = Text.ink doc.letters) docs lines := by
  have hforced := isForced_braced params h
  cases docs with
  | nil => simp at h
  | cons first docs =>
    obtain ⟨start, heq, hinline, hletters⟩ := exists_braced_eq params first docs
    obtain ⟨lines, hlines, hink⟩ := render_intersperse_hardline width (first :: docs) (indent + 2)
      (fun _ => true) (indent + 2)
    refine ⟨lines, ?_, hink⟩
    rw [heq] at hforced ⊢
    have hinner : (start ++ nest 2 (line ++ intersperse hardline (first :: docs)) ++ line
        ++ text "\x7d").IsForced := hforced
    rw [render_group_of_isForced width hinner, render_append, render_append, render_append,
      render_of_isInline width hinline, hletters]
    have hbody : ∀ column, ((nest 2 (line ++ intersperse hardline (first :: docs))).render width
        .broken indent (line.fits width .broken (Doc.fits width .broken (text "\x7d") after))
          column).1
          = newline (indent + 2) ++ (newline (indent + 2)).intercalate lines := fun column => by
      rw [← hlines]
      rfl
    rw [hbody, ← List.append_assoc]
    rfl

end Doc

end FlowDesugar
