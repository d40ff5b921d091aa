import FlowDesugar.Proofs.Quoting

/-!
# Where a quoted text ends

A reader of quoted texts goes from left to right and skips the character behind each backslash. What
it has to know at a place is whether the text up to there ends within an escape
(`Text.endsInEscape`); otherwise it *meets* the character that stands there (`Text.Meets`).

An escaped text can be read in this way. Since each of its characters is written as itself or as a
backslash with a letter, no escape reaches from one character into the next
(`Text.endsInEscape_escapeChar`), and what is met is a backslash or a character that is written as
itself. So the reader meets none of the characters that would end the text or break it off
(`Text.Meets.of_escape`), and the quote behind the text is the first one it meets: this is
`Text.escape_delimited`. A run of backslashes, behind which a quote may or may not be escaped, needs
no attention of its own, because it is made of whole escapes.
-/

namespace FlowDesugar

namespace Text

/-! ### Reading from left to right -/

/-- Whether the character that comes next is escaped, given whether this one is. -/
def escapesNext (escaped : Bool) (c : Char) : Bool :=
  !escaped && c == '\\'

/-- A text ends within an escape: there is a backslash at its end which is not itself escaped. -/
def endsInEscape (text : List Char) : Bool :=
  text.foldl escapesNext false

/-- A reader of the text meets the character `c` behind `front`. -/
def Meets (text front : List Char) (c : Char) : Prop :=
  endsInEscape front = false ∧ ∃ back, text = front ++ c :: back

/-- The first time that a reader of the text meets the character `c` is behind `front`. -/
def MeetsFirst (text front : List Char) (c : Char) : Prop :=
  Meets text front c ∧ ∀ front', Meets text front' c → front <+: front'

/-- Behind a text that does not end within an escape, reading starts afresh. -/
theorem endsInEscape_append {text : List Char} (h : endsInEscape text = false)
    (rest : List Char) : endsInEscape (text ++ rest) = endsInEscape rest := by
  unfold endsInEscape at h ⊢
  rw [List.foldl_append, h]

/-- **What is met in two texts**, of which the first does not end within an escape, is met in one
of them. -/
theorem Meets.of_append {text rest front : List Char} {c : Char}
    (htext : endsInEscape text = false) (h : Meets (text ++ rest) front c) :
    Meets text front c ∨ ∃ front', front = text ++ front' ∧ Meets rest front' c := by
  obtain ⟨hfront, back, heq⟩ := h
  obtain ⟨front', rfl, hrest⟩ | ⟨middle, rfl, hmiddle⟩ := List.append_eq_append_iff.mp heq
  · -- the character is behind the first text
    rw [endsInEscape_append htext] at hfront
    exact .inr ⟨front', rfl, hfront, back, hrest⟩
  · cases middle with
    | nil =>
      -- it is the first one of the second text
      refine .inr ⟨[], ?_, rfl, back, hmiddle.symm⟩
      rw [List.append_nil, List.append_nil]
    | cons d middle =>
      obtain ⟨rfl, -⟩ := List.cons.inj hmiddle
      exact .inl ⟨hfront, middle, rfl⟩

/-- A character that is not met in a text is met for the first time right behind it. -/
theorem meetsFirst_behind {text : List Char} {c : Char} (htext : endsInEscape text = false)
    (h : ∀ front, ¬ Meets text front c) (rest : List Char) :
    MeetsFirst (text ++ c :: rest) text c := by
  refine ⟨⟨htext, rest, rfl⟩, ?_⟩
  intro front' hmeets
  obtain hinside | ⟨front, rfl, -⟩ := hmeets.of_append htext
  · exact absurd hinside (h front')
  · exact List.prefix_append text front

/-! ### Reading escaped texts -/

theorem endsInEscape_escapeChar (interpolating : Bool) (c : Char) :
    endsInEscape (escapeChar interpolating c) = false := by
  obtain ⟨heq, hplain, -⟩ | ⟨letter, -, heq, -⟩ := escapeChar_cases interpolating c
  · have hbackslash : c ≠ '\\' := by
      rintro rfl
      simp at hplain
    rw [heq]
    simpa [endsInEscape, escapesNext] using hbackslash
  · -- whatever the letter is, it is escaped by the backslash and escapes nothing
    rw [heq]
    rfl

theorem endsInEscape_escape (interpolating : Bool) (cs : List Char) :
    endsInEscape (escape interpolating cs) = false := by
  induction cs with
  | nil => rfl
  | cons c cs ih =>
    rw [escape, List.flatMap_cons, endsInEscape_append (endsInEscape_escapeChar interpolating c)]
    exact ih

/-- In what a character is written as, nothing is met that is to be escaped. -/
theorem Meets.of_escapeChar {interpolating : Bool} {c d : Char} {front : List Char}
    (h : Meets (escapeChar interpolating c) front d) :
    d ∉ ['"', '\n', '\t'] ∧ (interpolating = true → d ≠ '$') := by
  obtain ⟨hfront, back, hback⟩ := h
  obtain ⟨heq, hplain, hdollar⟩ | ⟨letter, -, heq, -⟩ := escapeChar_cases interpolating c
  · -- written as itself, it is all there is to meet
    rw [heq] at hback
    obtain ⟨-, hd⟩ | ⟨-, hd⟩ := List.singleton_eq_append_iff.mp hback
    · obtain ⟨rfl, -⟩ := List.cons.inj hd
      have hsubset : ['"', '\n', '\t'] ⊆ ['"', '\\', '\n', '\t'] := by simp
      refine ⟨fun hmem => hplain (hsubset hmem), ?_⟩
      rintro rfl rfl
      cases hdollar rfl
    · cases hd
  · rw [heq] at hback
    obtain ⟨-, hd⟩ | ⟨front', rfl, hletter⟩ := List.cons_eq_append_iff.mp hback
    · -- the backslash is met
      obtain ⟨rfl, -⟩ := List.cons.inj hd
      simp
    · -- the letter is not: what is in front of it ends within an escape
      obtain ⟨rfl, -⟩ | ⟨-, hd⟩ := List.singleton_eq_append_iff.mp hletter
      · cases hfront
      · cases hd

/-- **What is met in an escaped text** ends no text and breaks none off. -/
theorem Meets.of_escape {interpolating : Bool} {cs front : List Char} {d : Char}
    (h : Meets (escape interpolating cs) front d) :
    d ∉ ['"', '\n', '\t'] ∧ (interpolating = true → d ≠ '$') := by
  induction cs generalizing front with
  | nil =>
    obtain ⟨-, back, hback⟩ := h
    simp [escape] at hback
  | cons c cs ih =>
    rw [escape, List.flatMap_cons] at h
    obtain hfirst | ⟨front', -, hrest⟩ := h.of_append (endsInEscape_escapeChar interpolating c)
    · exact hfirst.of_escapeChar
    · exact ih hrest

theorem meetsFirst_quote (interpolating : Bool) (cs rest : List Char) :
    MeetsFirst (escape interpolating cs ++ '"' :: rest) (escape interpolating cs) '"' := by
  refine meetsFirst_behind (endsInEscape_escape interpolating cs) ?_ rest
  intro front hmeets
  have hquote := hmeets.of_escape.1
  simp at hquote

end Text

/-! ### Printed strings -/

namespace Expr

/-- A string in which no expression is interpolated, escaped in either way. -/
def quotation (interpolating : Bool) (loc : Handle) (value : String) : Expr :=
  if interpolating then gstring loc [.text value] else literal loc (.text value)

/-- A string is printed alike wherever it stands. -/
theorem render_quotation (interpolating : Bool) (loc : Handle) (value : String) (width : Nat)
    (mode : Mode) (indent : Nat) (after : Nat → Bool) (column : Nat) :
    ((quotation interpolating loc value).doc.render width mode indent after column).1
      = '"' :: (Text.escape interpolating value.toList ++ ['"']) := by
  have hinline : (quotation interpolating loc value).doc.IsInline := by
    cases interpolating with
    | true => exact ⟨⟨trivial, trivial, trivial⟩, trivial⟩
    | false => exact ⟨⟨trivial, trivial⟩, trivial⟩
  rw [Doc.render_of_isInline width hinline]
  cases interpolating <;>
    simp [quotation, doc, chunkDocs, Literal.doc, Doc.concat, Doc.quoted, Doc.letters]

end Expr

/-- **A quoted text is delimited.** Either way of escaping is undone by `unescape`. A reader that
skips what is escaped meets none of the characters that are to be escaped, and is not within an
escape at the end. Hence, wherever a string is printed, the quote that closes it is the first one
that is met behind the quote that opens it, whatever is printed after it. -/
theorem Text.escape_delimited (interpolating : Bool) (value : String) :
    unescape (escape interpolating value.toList) = some value.toList
      ∧ (∀ front c, Meets (escape interpolating value.toList) front c →
          c ∉ ['"', '\n', '\t'] ∧ (interpolating = true → c ≠ '$'))
      ∧ endsInEscape (escape interpolating value.toList) = false
      ∧ (∀ loc width mode indent after column,
          ((Expr.quotation interpolating loc value).doc.render width mode indent after column).1
            = '"' :: (escape interpolating value.toList ++ ['"']))
      ∧ ∀ rest, MeetsFirst (escape interpolating value.toList ++ '"' :: rest)
          (escape interpolating value.toList) '"' :=
  ⟨unescape_escape interpolating value.toList, fun _ _ hmeets => hmeets.of_escape,
    endsInEscape_escape interpolating value.toList,
    fun loc => Expr.render_quotation interpolating loc value,
    meetsFirst_quote interpolating value.toList⟩

end FlowDesugar
