import Mathlib.Data.List.TakeWhile
import Mathlib.Data.String.Basic
import FlowDesugar.SourceText

/-!
# Labels in a source text

A position names a line and a character; a label is a range of bytes. `Text.IsLine` and
`Text.IsTrimmed` say what a line of a text and its text without trailing white space are, without
cutting the text into lines; `SourceText.exists_line` finds the line of a number with the bytes
before it, by going through the text once. The label of a position in that line
(`SourceText.span?_eq_some`) covers the text from the character named to its end (`Label.Covers`),
so both of its ends are ends of characters, and there is no line feed between them.

`Diagnostic.pointTo_lawful` puts this together: a diagnostic gets a label exactly if its line is one
of the text, and a note that names the position if it is not, but not zero.
-/

namespace FlowDesugar

namespace Text

/-! ### Bytes -/

@[simp] theorem byteCount_append (cs ds : List Char) :
    byteCount (cs ++ ds) = byteCount cs + byteCount ds := by
  induction cs with
  | nil => rw [List.nil_append, byteCount, Nat.zero_add]
  | cons c cs ih => rw [List.cons_append, byteCount, byteCount, ih, Nat.add_assoc]

theorem byteCount_eq_utf8Len (cs : List Char) : byteCount cs = String.utf8Len cs := by
  induction cs with
  | nil => rfl
  | cons c cs ih => rw [byteCount, String.utf8Len_cons, ih, Nat.add_comm]

theorem byteCount_toList (text : String) : byteCount text.toList = text.utf8ByteSize := by
  rw [byteCount_eq_utf8Len, String.utf8Len_toList]

/-- The bytes of a beginning of a text end where a character ends. -/
theorem isValid_byteCount {text : String} {front back : List Char}
    (h : text.toList = front ++ back) :
    (⟨byteCount front⟩ : String.Pos.Raw).IsValid text := by
  rw [String.Pos.Raw.isValid_iff_exists_append]
  refine ⟨String.ofList front, String.ofList back, ?_, ?_⟩
  · rw [← String.ofList_append, ← h, String.ofList_toList]
  · have hsize : (String.ofList front).utf8ByteSize = byteCount front := by
      rw [← byteCount_toList, String.toList_ofList]
    exact congrArg String.Pos.Raw.mk hsize.symm

theorem extract_byteCount {text : String} {front middle back : List Char}
    (h : text.toList = front ++ middle ++ back) :
    String.Pos.Raw.extract text ⟨byteCount front⟩ ⟨byteCount (front ++ middle)⟩
      = String.ofList middle := by
  have hextract := String.extract_of_valid front middle back
  rw [← h, String.ofList_toList, ← byteCount_eq_utf8Len, ← byteCount_eq_utf8Len,
    ← byteCount_append] at hextract
  exact hextract

/-! ### Lines -/

/-- In a text, `chars` is the line with the given number, counted from one, between `before` and
`rest`. -/
structure IsLine (content : List Char) (number : Nat) (before chars rest : List Char) : Prop where
  content_eq : content = before ++ chars ++ rest
  /-- There is a line feed for each line before it. -/
  number_eq : before.count '\n' + 1 = number
  /-- It starts at the start of the text or behind a line feed. -/
  starts : ∀ c ∈ before.getLast?, c = '\n'
  inside : '\n' ∉ chars
  /-- It ends at the end of the text or before a line feed. -/
  ends : ∀ c ∈ rest.head?, c = '\n'

namespace IsLine

variable {cs before chars rest : List Char} {number : Nat}

/-- A line feed in front of a text makes one line more. -/
theorem cons_newline (h : IsLine cs number before chars rest) :
    IsLine ('\n' :: cs) (number + 1) ('\n' :: before) chars rest where
  content_eq := congrArg ('\n' :: ·) h.content_eq
  number_eq := by rw [List.count_cons_self, h.number_eq]
  starts := by
    intro c hc
    cases before with
    | nil => exact (Option.some.inj hc).symm
    | cons first before =>
      rw [List.getLast?_cons_cons] at hc
      exact h.starts c hc
  inside := h.inside
  ends := h.ends

theorem before_eq_nil (h : IsLine cs 1 before chars rest) : before = [] := by
  have hcount : '\n' ∉ before := List.count_eq_zero.mp (Nat.succ.inj h.number_eq)
  cases hlast : before.getLast? with
  | none => exact List.getLast?_eq_none_iff.mp hlast
  | some c =>
    obtain rfl := h.starts c hlast
    exact absurd (List.mem_of_getLast? hlast) hcount

/-- Another character in front of a text becomes part of its first line. -/
theorem cons_first (h : IsLine cs 1 before chars rest) {c : Char} (hc : c ≠ '\n') :
    IsLine (c :: cs) 1 [] (c :: chars) rest where
  content_eq := by
    rw [h.content_eq, h.before_eq_nil]
    rfl
  number_eq := rfl
  starts := nofun
  inside := by
    rw [List.mem_cons, not_or]
    exact ⟨hc.symm, h.inside⟩
  ends := h.ends

/-- The later lines stay what they are. -/
theorem cons_later (h : IsLine cs (number + 2) before chars rest) {c : Char} (hc : c ≠ '\n') :
    IsLine (c :: cs) (number + 2) (c :: before) chars rest where
  content_eq := congrArg (c :: ·) h.content_eq
  number_eq := by rw [List.count_cons_of_ne hc, h.number_eq]
  starts := by
    cases before with
    | nil => exact absurd h.number_eq (by simp)
    | cons first before =>
      rw [List.getLast?_cons_cons]
      exact h.starts
  inside := h.inside
  ends := h.ends

end IsLine

/-- `text` is what is left of `chars` without the white space at its end. -/
structure IsTrimmed (chars text : List Char) : Prop where
  exists_blanks : ∃ blanks, chars = text ++ blanks ∧ ∀ c ∈ blanks, isBlank c
  ends : ∀ c ∈ text.getLast?, ¬ isBlank c

theorem isTrimmed_trimEnd (chars : List Char) : IsTrimmed chars (trimEnd chars) where
  exists_blanks := by
    refine ⟨(chars.reverse.takeWhile isBlank).reverse, ?_, ?_⟩
    · rw [trimEnd, dropEnd, ← List.reverse_append, List.takeWhile_append_dropWhile,
        List.reverse_reverse]
    · intro c hc
      exact List.mem_takeWhile_imp (List.mem_reverse.mp hc)
  ends := by
    intro c hc
    rw [trimEnd, dropEnd, List.getLast?_reverse] at hc
    have hhead := List.head?_dropWhile_not isBlank chars.reverse
    rw [Option.mem_def.mp hc] at hhead
    simpa using hhead

theorem splitLines_cons_of_ne {c : Char} (h : c ≠ '\n') (cs : List Char) :
    ∃ line lines, splitLines cs = line :: lines ∧ splitLines (c :: cs) = (c :: line) :: lines := by
  obtain ⟨line, lines, hcs⟩ := List.exists_cons_of_ne_nil (List.splitOn_ne_nil '\n' cs)
  unfold splitLines
  rw [splitAt_eq_splitOn, splitAt_eq_splitOn, List.splitOn_cons_eq_if_modifyHead,
    if_neg (by simpa using h), hcs]
  exact ⟨line, lines, rfl, rfl⟩

theorem length_splitLines (cs : List Char) : (splitLines cs).length = cs.count '\n' + 1 := by
  induction cs with
  | nil => rfl
  | cons c cs ih =>
    by_cases hc : c = '\n'
    · subst hc
      rw [List.count_cons_self, ← ih]
      rfl
    · obtain ⟨line, lines, hcs, hcons⟩ := splitLines_cons_of_ne hc cs
      rw [hcs] at ih
      rw [hcons, List.count_cons_of_ne hc, ← ih]
      rfl

end Text

namespace SourceText

theorem length_linesFrom (start : Nat) (lines : List (List Char)) :
    (linesFrom start lines).length = lines.length := by
  induction lines generalizing start with
  | nil => rfl
  | cons line lines ih => rw [linesFrom, List.length_cons, List.length_cons, ih]

/-- **The line of a number**, with the bytes before it. -/
theorem exists_line (start : Nat) (cs : List Char) {index : Nat} (h : index ≤ cs.count '\n') :
    ∃ before chars rest, Text.IsLine cs (index + 1) before chars rest ∧
      (linesFrom start (Text.splitLines cs))[index]?
        = some ⟨start + Text.byteCount before, chars⟩ := by
  induction cs generalizing start index with
  | nil =>
    obtain rfl : index = 0 := Nat.le_zero.mp h
    exact ⟨[], [], [], ⟨rfl, rfl, nofun, nofun, nofun⟩, rfl⟩
  | cons c cs ih =>
    by_cases hc : c = '\n'
    · subst hc
      cases index with
      | zero =>
        refine ⟨[], [], '\n' :: cs, ⟨rfl, rfl, nofun, nofun, ?_⟩, rfl⟩
        intro d hd
        exact (Option.some.inj hd).symm
      | succ index =>
        rw [List.count_cons_self] at h
        obtain ⟨before, chars, rest, hline, hget⟩ := ih (start + 1) (Nat.le_of_succ_le_succ h)
        refine ⟨'\n' :: before, chars, rest, hline.cons_newline, ?_⟩
        rw [Text.byteCount, ← Nat.add_assoc]
        exact hget
    · obtain ⟨line, lines, hcs, hcons⟩ := Text.splitLines_cons_of_ne hc cs
      rw [List.count_cons_of_ne hc] at h
      -- the first line of the rest starts one character later than the first line now
      obtain ⟨before, chars, rest, hline, hget⟩ := ih (start + c.utf8Size) h
      rw [hcs] at hget
      rw [hcons]
      cases index with
      | zero =>
        obtain rfl : line = chars := congrArg SourceLine.chars (Option.some.inj hget)
        exact ⟨[], c :: line, rest, hline.cons_first hc, rfl⟩
      | succ index =>
        refine ⟨c :: before, chars, rest, hline.cons_later hc, ?_⟩
        rw [linesFrom, List.getElem?_cons_succ] at hget ⊢
        rw [Text.byteCount, Text.byteCount, ← Nat.add_assoc, ← Nat.add_assoc]
        exact hget

/-- The lines of a text are numbered from one; there is one more than there are line feeds. -/
def HasLine (source : SourceText) (number : Nat) : Prop :=
  1 ≤ number ∧ number ≤ source.content.toList.count '\n' + 1

theorem line?_eq_some {source : SourceText} {number : Nat} (h : source.HasLine number) :
    ∃ before chars rest, Text.IsLine source.content.toList number before chars rest ∧
      source.line? number = some ⟨Text.byteCount before, chars⟩ := by
  obtain ⟨hpos, hle⟩ := h
  cases number with
  | zero => cases hpos
  | succ index =>
    obtain ⟨before, chars, rest, hline, hget⟩ :=
      exists_line 0 source.content.toList (Nat.le_of_succ_le_succ hle)
    rw [Nat.zero_add] at hget
    exact ⟨before, chars, rest, hline, hget⟩

theorem line?_eq_none {source : SourceText} {number : Nat} (h : ¬ source.HasLine number) :
    source.line? number = none := by
  cases number with
  | zero => rfl
  | succ index =>
    have hlength : source.lines.length ≤ index := by
      unfold lines
      rw [length_linesFrom, Text.length_splitLines]
      have hlarge : ¬ index + 1 ≤ source.content.toList.count '\n' + 1 := fun hle =>
        h ⟨Nat.succ_le_succ (Nat.zero_le index), hle⟩
      omega
    exact List.getElem?_eq_none hlength

end SourceText

/-! ### Labels -/

/-- The label covers the text of a line, which stands behind `before`, from the character on that
has `first` others of the line in front of it. -/
structure Label.Covers (label : Label) (content : String) (before text : List Char) (first : Nat) :
    Prop where
  start_eq : label.start = Text.byteCount (before ++ text.take first)
  stop_eq : label.stop = Text.byteCount (before ++ text)
  line_le_start : Text.byteCount before ≤ label.start
  start_le_stop : label.start ≤ label.stop
  stop_le_size : label.stop ≤ content.utf8ByteSize
  start_isValid : (⟨label.start⟩ : String.Pos.Raw).IsValid content
  stop_isValid : (⟨label.stop⟩ : String.Pos.Raw).IsValid content
  /-- What is between the two ends. -/
  extract_eq : String.Pos.Raw.extract content ⟨label.start⟩ ⟨label.stop⟩
    = String.ofList (text.drop first)
  no_newline : '\n' ∉ (String.Pos.Raw.extract content ⟨label.start⟩ ⟨label.stop⟩).toList

/-- **A range of characters in a line** is a range of bytes. -/
theorem Label.covers {content : String} {before text rest : List Char}
    (hcontent : content.toList = before ++ text ++ rest) (hline : '\n' ∉ text) (first : Nat) :
    Label.Covers ⟨Text.byteCount (before ++ text.take first), Text.byteCount (before ++ text)⟩
      content before text first := by
  have hcut : before ++ text = before ++ text.take first ++ text.drop first := by
    rw [List.append_assoc, List.take_append_drop]
  have hparts : content.toList = before ++ text.take first ++ text.drop first ++ rest := by
    rw [hcontent, hcut]
  have hextract := Text.extract_byteCount hparts
  rw [← hcut] at hextract
  have hstart : Text.byteCount before ≤ Text.byteCount (before ++ text.take first) := by
    rw [Text.byteCount_append]
    exact Nat.le_add_right ..
  have hstop : Text.byteCount (before ++ text.take first) ≤ Text.byteCount (before ++ text) := by
    rw [hcut, Text.byteCount_append _ (text.drop first)]
    exact Nat.le_add_right ..
  have hsize : Text.byteCount (before ++ text) ≤ content.utf8ByteSize := by
    rw [← Text.byteCount_toList, hcontent, Text.byteCount_append _ rest]
    exact Nat.le_add_right ..
  refine ⟨rfl, rfl, hstart, hstop, hsize, ?_, ?_, hextract, ?_⟩
  · rw [List.append_assoc _ _ rest] at hparts
    exact Text.isValid_byteCount hparts
  · exact Text.isValid_byteCount hcontent
  · rw [hextract, String.toList_ofList]
    exact fun hmem => hline (List.mem_of_mem_drop hmem)

theorem SourceText.span?_eq_some {source : SourceText} {position : Position}
    (h : source.HasLine position.line.toNat) :
    ∃ before chars rest text label,
      Text.IsLine source.content.toList position.line.toNat before chars rest ∧
      Text.IsTrimmed chars text ∧
      Label.Covers label source.content before text
        (min (max position.column.toNat 1 - 1) text.length) ∧
      source.span? position = some label := by
  obtain ⟨before, chars, rest, hline, hget⟩ := line?_eq_some h
  have htrimmed := Text.isTrimmed_trimEnd chars
  obtain ⟨blanks, hchars, -⟩ := htrimmed.exists_blanks
  have hcontent : source.content.toList
      = before ++ Text.trimEnd chars ++ (blanks ++ rest) := by
    have hsplit : before ++ chars ++ rest
        = before ++ (Text.trimEnd chars ++ blanks) ++ rest := by rw [← hchars]
    rw [hline.content_eq, hsplit]
    simp only [List.append_assoc]
  have hinside : '\n' ∉ Text.trimEnd chars := by
    intro hmem
    refine hline.inside ?_
    rw [hchars]
    exact List.mem_append_left blanks hmem
  refine ⟨before, chars, rest, Text.trimEnd chars, _, hline, htrimmed,
    Label.covers hcontent hinside _, ?_⟩
  -- a column is counted from one, and one beyond the text is cut off by `take`
  have htake : (Text.trimEnd chars).take (min (max position.column.toNat 1 - 1)
      (Text.trimEnd chars).length) = (Text.trimEnd chars).take (position.column.toNat - 1) := by
    rw [← List.take_eq_take_min]
    congr 1
    omega
  rw [span?, hget, Option.map_some, htake, Text.byteCount_append, Text.byteCount_append]

namespace Diagnostic

theorem pointTo_of_some {source : SourceText} {position : Position} {label : Label}
    (h : source.span? position = some label) (diagnostic : Diagnostic) :
    diagnostic.pointTo (some source) position = diagnostic.withLabel label := by
  rw [pointTo, Option.bind_some, h]

theorem pointTo_of_none {source : SourceText} {position : Position}
    (h : source.span? position = none) (diagnostic : Diagnostic) :
    diagnostic.pointTo (some source) position
      = if 0 < position.line.toNat then
          diagnostic.withNote
            ("at " ++ position.line.toNat.repr ++ ":" ++ position.column.toNat.repr)
        else diagnostic := by
  have hzero : position.line = 0 ↔ ¬ 0 < position.line.toNat := by
    rw [← UInt64.toNat_inj, UInt64.toNat_zero]
    omega
  have htext : "at " ++ position.text
      = "at " ++ position.line.toNat.repr ++ ":" ++ position.column.toNat.repr := by
    rw [String.append_assoc, String.append_assoc]
    exact congrArg ("at " ++ ·) (String.append_assoc ..)
  rw [pointTo, Option.bind_some, h, ← htext]
  by_cases hline : 0 < position.line.toNat
  · rw [if_pos hline, if_neg (fun heq => hzero.mp heq hline)]
  · rw [if_neg hline, if_pos (hzero.mpr hline)]

/-- **What a position adds to a diagnostic.** A label exactly if the line of the position is one of
the text, which then covers the text of the line from the character of the position on; otherwise a
note that names the position, unless its line is zero. -/
theorem pointTo_lawful (source : SourceText) (diagnostic : Diagnostic) (position : Position) :
    (source.HasLine position.line.toNat →
      ∃ before chars rest text label,
        Text.IsLine source.content.toList position.line.toNat before chars rest ∧
        Text.IsTrimmed chars text ∧
        Label.Covers label source.content before text
          (min (max position.column.toNat 1 - 1) text.length) ∧
        diagnostic.pointTo (some source) position = diagnostic.withLabel label) ∧
    (¬ source.HasLine position.line.toNat →
      diagnostic.pointTo (some source) position
        = if 0 < position.line.toNat then
            diagnostic.withNote
              ("at " ++ position.line.toNat.repr ++ ":" ++ position.column.toNat.repr)
          else diagnostic) ∧
    (diagnostic.label = none →
      ((diagnostic.pointTo (some source) position).label.isSome
        ↔ source.HasLine position.line.toNat)) := by
  have hnone : ¬ source.HasLine position.line.toNat → source.span? position = none := by
    intro hline
    rw [SourceText.span?, SourceText.line?_eq_none hline, Option.map_none]
  refine ⟨?_, fun hline => pointTo_of_none (hnone hline) diagnostic, fun hlabel => ⟨?_, ?_⟩⟩
  · intro hline
    obtain ⟨before, chars, rest, text, label, hat, htrimmed, hcovers, hspan⟩ :=
      SourceText.span?_eq_some hline
    exact ⟨before, chars, rest, text, label, hat, htrimmed, hcovers,
      pointTo_of_some hspan diagnostic⟩
  · -- without a line there is a note at most
    intro hsome
    by_contra hline
    rw [pointTo_of_none (hnone hline)] at hsome
    split at hsome
    · rw [withNote, hlabel] at hsome
      cases hsome
    · rw [hlabel] at hsome
      cases hsome
  · intro hline
    obtain ⟨-, -, -, -, label, -, -, -, hspan⟩ := SourceText.span?_eq_some hline
    rw [pointTo_of_some hspan]
    rfl

/-- Two lines, the first of which has a tab, an accent and a carriage return. -/
def sampleText : SourceText :=
  ⟨"main.nf", "\tré\r\n"⟩

theorem hasLine_sampleText (number : Nat) :
    sampleText.HasLine number ↔ 1 ≤ number ∧ number ≤ 2 := by
  have hcount : sampleText.content.toList.count '\n' = 1 := by simp [sampleText]
  rw [SourceText.HasLine, hcount]

theorem pointTo_lawful_accent :
    sampleText.HasLine 1 ∧ ¬ sampleText.HasLine 3 ∧
    (∃ before text label, Label.Covers label sampleText.content before text (min 2 text.length) ∧
      ({ message := "" } : Diagnostic).pointTo (some sampleText) ⟨1, 3⟩
        = { message := "", label := some label }) ∧
    (({ message := "" } : Diagnostic).pointTo (some sampleText) ⟨1, 3⟩).label.isSome ∧
    ({ message := "" } : Diagnostic).pointTo (some sampleText) ⟨3, 1⟩
      = { message := "", notes := ["at " ++ (3).repr ++ ":" ++ (1).repr] } := by
  have hfirst : sampleText.HasLine 1 := (hasLine_sampleText 1).mpr (by decide)
  have hthird : ¬ sampleText.HasLine 3 := fun h => absurd ((hasLine_sampleText 3).mp h) (by decide)
  obtain ⟨hlabel, -, hsome⟩ := pointTo_lawful sampleText { message := "" } ⟨1, 3⟩
  obtain ⟨-, hnote, -⟩ := pointTo_lawful sampleText { message := "" } ⟨3, 1⟩
  obtain ⟨before, -, -, text, label, -, -, hcovers, heq⟩ := hlabel hfirst
  exact ⟨hfirst, hthird, ⟨before, text, label, hcovers, heq⟩, (hsome rfl).mpr hfirst, hnote hthird⟩

example : sampleText.span? ⟨1, 3⟩ = some ⟨2, 4⟩ := by
  rfl

end Diagnostic

end FlowDesugar
