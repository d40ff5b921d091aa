import Mathlib.Data.List.Basic
import FlowDesugar.Proofs.Letters

/-!
# Quoted texts and templates

Plain and interpolated strings are both written between double quotes. Either way of escaping is
undone by the one function `Text.unescape` (`Text.unescape_escape`); they differ in the dollar sign,
which is escaped only where expressions can be interpolated (`Text.length_escape`).

A plain string can therefore look like an interpolated one. It does so exactly if it is a *template*
(`Text.IsTemplate`): its first dollar sign stands before an opening brace, and a closing brace comes
after its last one. This is `Expr.surface_reads_interpolated_iff`. In one direction, what precedes
the first interpolation of a string and what follows the last one is escaped text, so it holds no
dollar sign of its own; in the other, all that is between the braces passes for a name.
-/

namespace FlowDesugar

namespace Text

/-! ### Escapes -/

/-- The letters that stand behind a backslash. -/
def escapeLetters : List Char :=
  ['"', '\\', 'n', 't', '$']

/-- **A character is written as itself or as a letter behind a backslash.** -/
theorem escapeChar_cases (interpolating : Bool) (c : Char) :
    (escapeChar interpolating c = [c] ∧ c ∉ ['"', '\\', '\n', '\t']
        ∧ (c = '$' → interpolating = false)) ∨
      ∃ letter ∈ escapeLetters, escapeChar interpolating c = ['\\', letter]
        ∧ unescapeChar letter = c ∧ (letter = '$' → interpolating = true) := by
  unfold escapeChar
  split
  · exact .inr ⟨'"', by simp [escapeLetters], rfl, rfl, nofun⟩
  · exact .inr ⟨'\\', by simp [escapeLetters], rfl, rfl, nofun⟩
  · exact .inr ⟨'n', by simp [escapeLetters], rfl, rfl, nofun⟩
  · exact .inr ⟨'t', by simp [escapeLetters], rfl, rfl, nofun⟩
  · cases interpolating with
    | true => exact .inr ⟨'$', by simp [escapeLetters], rfl, rfl, fun _ => rfl⟩
    | false => exact .inl ⟨rfl, by simp, fun _ => rfl⟩
  · rename_i hquote hbackslash hnewline htab hdollar
    refine .inl ⟨rfl, ?_, fun h => absurd h hdollar⟩
    simp only [List.mem_cons, List.not_mem_nil, or_false, not_or]
    exact ⟨hquote, hbackslash, hnewline, htab⟩

theorem escape_append (interpolating : Bool) (cs ds : List Char) :
    escape interpolating (cs ++ ds) = escape interpolating cs ++ escape interpolating ds :=
  List.flatMap_append

theorem unescape_escapeChar (interpolating : Bool) (c : Char) (rest : List Char) :
    unescape (escapeChar interpolating c ++ rest) = (unescape rest).map (c :: ·) := by
  obtain ⟨heq, hplain, -⟩ | ⟨letter, -, heq, hletter, -⟩ := escapeChar_cases interpolating c
  · have hbackslash : c ≠ '\\' := by
      rintro rfl
      simp at hplain
    rw [heq, List.singleton_append, unescape]
    · exact fun hc _ => hbackslash hc
    · exact fun _ _ hc _ => hbackslash hc
  · rw [heq, List.cons_append, List.singleton_append, unescape, hletter]

/-- **What is escaped is read back**, whatever comes after it. -/
theorem unescape_escape_append (interpolating : Bool) (cs rest : List Char) :
    unescape (escape interpolating cs ++ rest) = (unescape rest).map (cs ++ ·) := by
  induction cs with
  | nil => cases hrest : unescape rest <;> simp [escape, hrest]
  | cons c cs ih =>
    have hsplit : escape interpolating (c :: cs) ++ rest
        = escapeChar interpolating c ++ (escape interpolating cs ++ rest) := by
      simp only [escape, List.flatMap_cons, List.append_assoc]
    rw [hsplit, unescape_escapeChar, ih, Option.map_map]
    rfl

theorem unescape_escape (interpolating : Bool) (cs : List Char) :
    unescape (escape interpolating cs) = some cs := by
  have h := unescape_escape_append interpolating cs []
  simpa [unescape] using h

/-! ### Dollar signs -/

theorem escapeChar_of_ne_dollar {c : Char} (h : c ≠ '$') (interpolating : Bool) :
    escapeChar interpolating c = escapeChar false c := by
  unfold escapeChar
  split <;> first | rfl | exact absurd rfl h

theorem escape_of_not_mem {cs : List Char} (h : '$' ∉ cs) (interpolating : Bool) :
    escape interpolating cs = escape false cs :=
  List.flatMap_congr fun _ hc => escapeChar_of_ne_dollar (fun heq => h (heq ▸ hc)) interpolating

/-- Where expressions can be interpolated, each dollar sign takes one more character. -/
theorem length_escape (cs : List Char) :
    (escape true cs).length = (escape false cs).length + cs.count '$' := by
  induction cs with
  | nil => rfl
  | cons c cs ih =>
    simp only [escape, List.flatMap_cons, List.length_append, List.count_cons] at ih ⊢
    by_cases hc : c = '$'
    · subst hc
      simp only [escapeChar, ih]
      simp
      omega
    · rw [escapeChar_of_ne_dollar hc true, ih]
      simp [hc]
      omega

/-- **Texts without dollar signs** are the only ones that both ways of escaping write alike. -/
theorem not_mem_of_escape_eq {cs ds : List Char} (h : escape false cs = escape true ds) :
    '$' ∉ cs := by
  have hread : some cs = some ds := by
    rw [← unescape_escape false cs, ← unescape_escape true ds, h]
  obtain rfl := Option.some.inj hread
  have hlength := length_escape cs
  rw [h] at hlength
  exact List.count_eq_zero.mp (by omega)

/-! ### Templates -/

/-- A text that reads as if expressions were interpolated: there is a dollar sign with an opening
brace, later a closing brace, and no dollar sign outside of the two. -/
def IsTemplate (cs : List Char) : Prop :=
  ∃ front middle back, cs = front ++ '$' :: '{' :: (middle ++ '}' :: back)
    ∧ '$' ∉ front ∧ '$' ∉ back

/-- A dollar sign or a brace in a quoted text stands for itself. -/
theorem escapeChar_of_mem {c mark : Char} (hmark : mark ∈ ['$', '{', '}'])
    (h : mark ∈ escapeChar false c) : c = mark ∧ escapeChar false c = [mark] := by
  obtain ⟨heq, -, -⟩ | ⟨letter, hletter, heq, -, hdollar⟩ := escapeChar_cases false c
  · rw [heq, List.mem_singleton] at h
    subst h
    exact ⟨rfl, heq⟩
  · -- neither the backslash nor a letter behind it is one of the marks
    rw [heq] at h
    have hne : letter ≠ '$' := fun hc => nomatch hdollar hc
    have hbackslash : mark ≠ '\\' := by
      rintro rfl
      simp at hmark
    obtain rfl : mark = letter := by simpa [hbackslash] using h
    simp only [escapeLetters, List.mem_cons, List.not_mem_nil, or_false] at hmark hletter
    obtain rfl | rfl | rfl := hmark <;> simp at hletter hne

/-- **A quoted text is cut at a dollar sign or a brace** where the text itself is. -/
theorem escape_eq_append_cons {cs before behind : List Char} {mark : Char}
    (hmark : mark ∈ ['$', '{', '}']) (h : escape false cs = before ++ mark :: behind) :
    ∃ front back, cs = front ++ mark :: back ∧ escape false front = before
      ∧ escape false back = behind := by
  induction cs generalizing before with
  | nil => simp [escape] at h
  | cons c cs ih =>
    have hcons : escapeChar false c ++ escape false cs = before ++ mark :: behind := h
    obtain ⟨rest, rfl, hrest⟩ | ⟨rest, hc, hrest⟩ := List.append_eq_append_iff.mp hcons
    · -- the mark comes after the first character
      obtain ⟨front, back, rfl, hfront, hback⟩ := ih hrest
      refine ⟨c :: front, back, rfl, ?_, hback⟩
      rw [← hfront]
      rfl
    · cases rest with
      | nil =>
        obtain ⟨front, back, rfl, hfront, hback⟩ := @ih [] hrest.symm
        refine ⟨c :: front, back, rfl, ?_, hback⟩
        rw [List.append_nil] at hc
        rw [← hc]
        simp only [escape, List.flatMap_cons] at hfront ⊢
        rw [hfront, List.append_nil]
      | cons first rest =>
        -- the mark is in what the first character is written as, so it is that character
        obtain ⟨rfl, hbehind⟩ := List.cons.inj hrest
        have hmem : mark ∈ escapeChar false c := by
          rw [hc]
          exact List.mem_append_right _ List.mem_cons_self
        obtain ⟨rfl, hself⟩ := escapeChar_of_mem hmark hmem
        rw [hself] at hc
        obtain rfl : before = [] := by
          cases before with
          | nil => rfl
          | cons _ before => simp at hc
        obtain rfl : rest = [] := by simpa using hc
        exact ⟨[], cs, rfl, rfl, hbehind.symm⟩

/-- A text that is quoted as an interpolated string is a template. -/
theorem isTemplate_of_escape_eq {cs front middle back : List Char}
    (h : escape false cs
      = escape true front ++ '$' :: '{' :: (middle ++ '}' :: escape true back)) :
    IsTemplate cs := by
  obtain ⟨cs₁, rest₁, rfl, hfront, hrest⟩ := escape_eq_append_cons (by simp) h
  rw [← List.nil_append ('{' :: _)] at hrest
  obtain ⟨cs₂, rest₂, rfl, hnil, hrest⟩ := escape_eq_append_cons (by simp) hrest
  obtain ⟨cs₃, rest₃, rfl, -, hback⟩ := escape_eq_append_cons (by simp) hrest
  -- nothing is between the dollar sign and the brace
  obtain rfl : cs₂ = [] := by
    have hread := unescape_escape false cs₂
    rw [hnil, unescape] at hread
    exact (Option.some.inj hread).symm
  exact ⟨cs₁, cs₃, rest₃, rfl, not_mem_of_escape_eq hfront, not_mem_of_escape_eq hback⟩

end Text

/-! ### Strings on a page -/

/-- A list of pieces in which no expression is interpolated is laid out as an escaped text. -/
theorem render_chunks_of_texts (width : Nat) {chunks : List Chunk}
    (h : ∀ e, Chunk.interpolation e ∉ chunks) (mode : Mode) (indent : Nat) (after : Nat → Bool)
    (column : Nat) :
    ∃ value, ((Doc.concat (chunkDocs chunks)).render width mode indent after column).1
      = Text.escape true value := by
  induction chunks generalizing column with
  | nil => exact ⟨[], rfl⟩
  | cons chunk chunks ih =>
    cases chunk with
    | text value =>
      obtain ⟨rest, hrest⟩ := ih (fun e he => h e (List.mem_cons_of_mem _ he))
        (column + Text.columns (String.ofList (Text.escape true value.toList)))
      refine ⟨value.toList ++ rest, ?_⟩
      rw [chunkDocs, Doc.concat, Doc.render_append, Text.escape_append]
      exact congr (congrArg _ String.toList_ofList) hrest
    | interpolation e => exact absurd List.mem_cons_self (h e)

theorem render_interpolation (width : Nat) (e : Expr) (chunks : List Chunk) (mode : Mode)
    (indent : Nat) (after : Nat → Bool) (column : Nat) :
    ∃ inner next,
      ((Doc.concat (chunkDocs (.interpolation e :: chunks))).render width mode indent after
          column).1
        = '$' :: '{' :: (inner
          ++ '}' :: ((Doc.concat (chunkDocs chunks)).render width mode indent after next).1) := by
  rw [chunkDocs, Doc.concat, Doc.render_append, Doc.render_append, Doc.render_append,
    List.append_assoc, List.append_assoc]
  exact ⟨_, _, rfl⟩

/-- **An interpolated string is laid out** as an escaped text, what is between the first and the
last of its braces, and another escaped text. -/
theorem render_chunks_of_interpolation (width : Nat) {chunks : List Chunk}
    (h : ∃ e, Chunk.interpolation e ∈ chunks) (mode : Mode) (indent : Nat) (after : Nat → Bool)
    (column : Nat) :
    ∃ front middle back,
      ((Doc.concat (chunkDocs chunks)).render width mode indent after column).1
        = Text.escape true front ++ '$' :: '{' :: (middle ++ '}' :: Text.escape true back) := by
  induction chunks generalizing column with
  | nil =>
    obtain ⟨e, he⟩ := h
    cases he
  | cons chunk chunks ih =>
    cases chunk with
    | text value =>
      have hchunks : ∃ e, Chunk.interpolation e ∈ chunks := by
        obtain ⟨e, he⟩ := h
        cases he with
        | tail _ he => exact ⟨e, he⟩
      obtain ⟨front, middle, back, hrest⟩ := ih hchunks
        (column + Text.columns (String.ofList (Text.escape true value.toList)))
      refine ⟨value.toList ++ front, middle, back, ?_⟩
      rw [chunkDocs, Doc.concat, Doc.render_append, Text.escape_append, List.append_assoc]
      exact congr (congrArg _ String.toList_ofList) hrest
    | interpolation e =>
      obtain ⟨inner, next, heq⟩ := render_interpolation width e chunks mode indent after column
      by_cases hchunks : ∃ e, Chunk.interpolation e ∈ chunks
      · -- the last brace is that of a later interpolation
        obtain ⟨front, middle, back, hrest⟩ := ih hchunks next
        refine ⟨[], inner ++ '}' :: (Text.escape true front ++ '$' :: '{' :: middle), back, ?_⟩
        rw [heq, hrest]
        simp [Text.escape]
      · obtain ⟨back, hrest⟩ := render_chunks_of_texts width (not_exists.mp hchunks) mode indent
          after next
        refine ⟨[], inner, back, ?_⟩
        rw [heq, hrest]
        rfl

namespace Expr

theorem surface_text (loc : Handle) (value : String) :
    (literal loc (.text value)).surface
      = String.ofList ('"' :: (Text.escape false value.toList ++ ['"', '\n'])) := by
  have hletters : (literal loc (.text value)).doc.letters
      = '"' :: (Text.escape false value.toList ++ ['"']) :=
    congrArg (fun cs => '"' :: (cs ++ ['"'])) String.toList_ofList
  have hinline : (literal loc (.text value)).doc.IsInline := ⟨⟨trivial, trivial⟩, trivial⟩
  refine (Doc.page_of_isInline _ hinline).trans ?_
  rw [hletters, List.cons_append, List.append_assoc]
  rfl

theorem surface_gstring (loc : Handle) (chunks : List Chunk) :
    ∃ after column, (gstring loc chunks).surface
      = String.ofList ('"' :: (((Doc.concat (chunkDocs chunks)).render Doc.pageWidth .broken 0 after
          column).1 ++ ['"', '\n'])) := by
  unfold surface surfaceAt
  rw [doc, Doc.page_eq, Doc.render_append, Doc.render_append, List.append_assoc, List.append_assoc]
  exact ⟨_, _, rfl⟩

/-- The pieces that a template is taken for: what is between the braces is a name. -/
def templateChunks (loc : Handle) (front middle back : List Char) : List Chunk :=
  [.text (String.ofList front),
    .interpolation (.var loc (String.ofList (Text.escape false middle))),
    .text (String.ofList back)]

theorem surface_template (loc loc' : Handle) {front middle back : List Char}
    (hfront : '$' ∉ front) (hback : '$' ∉ back) :
    (literal loc (.text (String.ofList (front ++ '$' :: '{' :: (middle ++ '}' :: back))))).surface
      = (gstring loc' (templateChunks loc' front middle back)).surface := by
  have hinline : (gstring loc' (templateChunks loc' front middle back)).doc.IsInline :=
    ⟨⟨trivial, ⟨trivial, ⟨⟨trivial, trivial⟩, trivial⟩, trivial, trivial⟩⟩, trivial⟩
  have hletters : (gstring loc' (templateChunks loc' front middle back)).doc.letters
      = '"' :: ((Text.escape true front ++ '$' :: '{' :: (Text.escape false middle
          ++ '}' :: Text.escape true back)) ++ ['"']) := by
    simp [templateChunks, doc, chunkDocs, Doc.concat, Doc.quoted, Doc.letters]
  have hcut : Text.escape false (front ++ '$' :: '{' :: (middle ++ '}' :: back))
      = Text.escape false front ++ '$' :: '{' :: (Text.escape false middle
          ++ '}' :: Text.escape false back) := by
    rw [Text.escape_append]
    refine congrArg (Text.escape false front ++ ·) ?_
    exact congrArg ('$' :: '{' :: ·) (Text.escape_append false middle _)
  rw [surface_text, String.toList_ofList, hcut]
  refine ((Doc.page_of_isInline _ hinline).trans ?_).symm
  rw [hletters, Text.escape_of_not_mem hfront, Text.escape_of_not_mem hback, List.cons_append,
    List.append_assoc _ ['"']]
  rfl

/-- **A plain string reads as an interpolated one** exactly if it is a template. -/
theorem surface_reads_interpolated_iff (loc loc' : Handle) (value : String) :
    (∃ chunks, (∃ e, Chunk.interpolation e ∈ chunks)
        ∧ (literal loc (.text value)).surface = (gstring loc' chunks).surface)
      ↔ Text.IsTemplate value.toList := by
  constructor
  · rintro ⟨chunks, hchunks, heq⟩
    obtain ⟨after, column, hgstring⟩ := surface_gstring loc' chunks
    obtain ⟨front, middle, back, hrender⟩ := render_chunks_of_interpolation Doc.pageWidth hchunks
      .broken 0 after column
    rw [surface_text, hgstring, hrender, String.ofList_inj] at heq
    exact Text.isTemplate_of_escape_eq (List.append_cancel_right (List.cons.inj heq).2)
  · rintro ⟨front, middle, back, hvalue, hfront, hback⟩
    refine ⟨templateChunks loc' front middle back,
      ⟨_, List.mem_cons_of_mem _ List.mem_cons_self⟩, ?_⟩
    rw [← surface_template loc loc' hfront hback, ← hvalue, String.ofList_toList]

/-- The text `${x}` reads as the interpolated name `x`. -/
theorem surface_confuses_dollar_text :
    (∃ e, Chunk.interpolation e ∈ [Chunk.interpolation (.var .unknown "x")]) ∧
    (literal .unknown (.text "$\x7bx\x7d")).surface
      = (gstring .unknown [.interpolation (.var .unknown "x")]).surface := by
  refine ⟨⟨_, List.mem_cons_self⟩, ?_⟩
  rfl

end Expr

end FlowDesugar
