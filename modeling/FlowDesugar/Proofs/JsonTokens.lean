import FlowDesugar.Json.Reader
import FlowDesugar.Json.Writer

/-!
# Reading the tokens of JSON that was written

Strings and integers are read as they were written, from behind the quote or the sign that says what
is to come. A character of a string is written in one of three ways (`escapeChar_cases`), and the
reader takes each of them for that character. The digits of a number end where none follows, so that
what comes behind a value matters: it is a comma or the end of a line (`Delimited`).
-/

namespace FlowDesugar.Json

/-! ### White space -/

variable {rest : List Char} {offset level room : Nat}

theorem skipBlanks_of_not_blank {c : Char} (h : isBlank c = false) :
    skipBlanks ⟨c :: rest, offset⟩ = ⟨c :: rest, offset⟩ := by
  simp [skipBlanks, h]

theorem isBlank_of_mem_newline {c : Char} (h : c ∈ newline level) : isBlank c = true := by
  rcases List.mem_cons.mp h with rfl | hmem
  · rfl
  · rw [List.eq_of_mem_replicate hmem]
    rfl

/-- The start of a line is skipped. -/
theorem skipBlanks_newline {c : Char} (h : isBlank c = false) :
    ∃ offset', skipBlanks ⟨newline level ++ c :: rest, offset⟩ = ⟨c :: rest, offset'⟩ := by
  have hrest : (newline level ++ c :: rest).dropWhile isBlank = c :: rest := by
    rw [List.dropWhile_append_of_pos fun c => isBlank_of_mem_newline,
      List.dropWhile_cons_of_neg (Bool.eq_false_iff.mp h)]
  exact ⟨_, congrArg (Cursor.mk · _) hrest⟩

/-- What may follow a value: a comma or the end of a line. -/
inductive Delimited : List Char → Prop
  | comma {rest : List Char} : Delimited (',' :: rest)
  | line {rest : List Char} : Delimited ('\n' :: rest)

theorem delimited_newline : Delimited (newline level ++ rest) :=
  .line

/-! ### Strings -/

/-- The three ways of writing a character: by a letter, by its number, and as itself. -/
theorem escapeChar_cases (c : Char) :
    (∃ letter, escapeChar c = ['\\', letter] ∧ escaped? letter = some c) ∨
    (c.toNat < 0x20 ∧ escapeChar c =
      ['\\', 'u', '0', '0', hexDigit (c.toNat / 16), hexDigit (c.toNat % 16)]) ∨
    (escapeChar c = [c] ∧ c ≠ '"' ∧ c ≠ '\\' ∧ ¬ c.toNat < 0x20) := by
  unfold escapeChar
  split
  case h_8 hquote hslash _ _ _ _ _ =>
    by_cases hcontrol : c.toNat < 0x20
    · rw [if_pos hcontrol]
      exact .inr (.inl ⟨hcontrol, rfl⟩)
    · rw [if_neg hcontrol]
      exact .inr (.inr ⟨rfl, hquote, hslash, hcontrol⟩)
  all_goals exact .inl ⟨_, rfl, rfl⟩

variable {seen : List Char}

theorem readString_letter {letter c : Char} (h : escaped? letter = some c) :
    readString seen offset ('\\' :: letter :: rest)
      = readString (c :: seen) (offset + 2) rest := by
  have hne : letter ≠ 'u' := by
    rintro rfl
    cases h
  rw [readString]
  · rw [h]
  · exact fun _ _ _ _ _ heq => absurd heq hne
  · exact hne

theorem codeUnit?_hexDigit : ∀ n < 0x20,
    codeUnit? '0' '0' (hexDigit (n / 16)) (hexDigit (n % 16)) = some n := by
  decide

theorem readString_control {c : Char} (h : c.toNat < 0x20) :
    readString seen offset
        ('\\' :: 'u' :: '0' :: '0' :: hexDigit (c.toNat / 16) :: hexDigit (c.toNat % 16) :: rest)
      = readString (c :: seen) (offset + 6) rest := by
  have htrailing : ¬ isTrailing c.toNat := by
    simp only [isTrailing, Bool.and_eq_true, decide_eq_true_eq]
    omega
  have hleading : ¬ isLeading c.toNat := by
    simp only [isLeading, Bool.and_eq_true, decide_eq_true_eq]
    omega
  rw [readString, codeUnit?_hexDigit _ h]
  simp only [htrailing, hleading, Char.ofNat_toNat]
  rfl

theorem readString_self {c : Char} (hquote : c ≠ '"') (hslash : c ≠ '\\')
    (hcontrol : ¬ c.toNat < 0x20) :
    readString seen offset (c :: rest) = readString (c :: seen) (offset + c.utf8Size) rest := by
  rw [readString, if_neg hcontrol]
  · exact hquote
  -- every other case of the reader starts with a backslash
  · exact fun heq => absurd heq hslash
  · exact fun _ _ _ _ _ heq => absurd heq hslash
  · exact fun _ heq => absurd heq hslash
  · exact fun _ _ heq => absurd heq hslash

theorem readString_escapeChar (seen : List Char) (offset : Nat) (c : Char) (rest : List Char) :
    ∃ offset', readString seen offset (escapeChar c ++ rest)
      = readString (c :: seen) offset' rest := by
  obtain ⟨letter, hwritten, hletter⟩ | ⟨hcontrol, hwritten⟩ | ⟨hwritten, hquote, hslash, hplain⟩ :=
    escapeChar_cases c
  · rw [hwritten]
    exact ⟨_, readString_letter hletter⟩
  · rw [hwritten]
    exact ⟨_, readString_control hcontrol⟩
  · rw [hwritten]
    exact ⟨_, readString_self hquote hslash hplain⟩

/-- **A string is read as it was written**, from behind its opening quote. -/
theorem readString_written (seen : List Char) (offset : Nat) (chars rest : List Char) :
    ∃ offset', readString seen offset (chars.flatMap escapeChar ++ '"' :: rest)
      = .ok ⟨String.ofList (seen.reverse ++ chars), ⟨rest, offset'⟩⟩ := by
  induction chars generalizing seen offset with
  | nil => exact ⟨_, by rw [List.flatMap_nil, List.nil_append, readString, List.append_nil]⟩
  | cons c chars ih =>
    rw [List.flatMap_cons, List.append_assoc]
    obtain ⟨offset₁, hfirst⟩ :=
      readString_escapeChar seen offset c (chars.flatMap escapeChar ++ '"' :: rest)
    obtain ⟨offset₂, hrest⟩ := ih (c :: seen) offset₁
    refine ⟨offset₂, ?_⟩
    rw [hfirst, hrest, List.reverse_cons, List.append_assoc]
    rfl

/-! ### Numbers -/

theorem isDigit_of_mem_toDigits {n : Nat} {c : Char} (h : c ∈ Nat.toDigits 10 n) :
    isDigit c = true := by
  have hdigit := Nat.isDigit_of_mem_toDigits (by decide) (by decide) h
  simpa [Char.isDigit, isDigit, Char.le_def] using hdigit

theorem ne_of_isDigit {c c' : Char} (h : isDigit c = true) (h' : isDigit c' = false) : c ≠ c' := by
  rintro rfl
  rw [h] at h'
  cases h'

theorem not_isBlank_of_isDigit {c : Char} (h : isDigit c = true) : isBlank c = false := by
  have hspace : c ≠ ' ' := ne_of_isDigit h rfl
  have hline : c ≠ '\n' := ne_of_isDigit h rfl
  have htab : c ≠ '\t' := ne_of_isDigit h rfl
  have hreturn : c ≠ '\r' := ne_of_isDigit h rfl
  simp [isBlank, hspace, hline, htab, hreturn]

theorem not_isDigit_of_delimited (h : Delimited rest) : rest.takeWhile isDigit = [] := by
  cases h <;> rfl

theorem dropWhile_isDigit_of_delimited (h : Delimited rest) : rest.dropWhile isDigit = rest := by
  cases h <;> rfl

/-- The digits of a number are followed by none. -/
theorem takeDigits_toDigits (n offset : Nat) (h : Delimited rest) :
    ∃ offset', takeDigits ⟨Nat.toDigits 10 n ++ rest, offset⟩
      = (Nat.toDigits 10 n, ⟨rest, offset'⟩) := by
  have hdigits : ∀ c ∈ Nat.toDigits 10 n, isDigit c = true := fun c => isDigit_of_mem_toDigits
  have htake : (Nat.toDigits 10 n ++ rest).takeWhile isDigit = Nat.toDigits 10 n := by
    rw [List.takeWhile_append_of_pos hdigits, not_isDigit_of_delimited h, List.append_nil]
  have hdrop : (Nat.toDigits 10 n ++ rest).dropWhile isDigit = rest := by
    rw [List.dropWhile_append_of_pos hdigits, dropWhile_isDigit_of_delimited h]
  unfold takeDigits
  rw [htake, hdrop]
  exact ⟨_, rfl⟩

theorem digitChar_ne_zero : ∀ n < 10, 0 < n → Nat.digitChar n ≠ '0' := by
  decide

theorem head?_toDigits {n : Nat} (h : 0 < n) : (Nat.toDigits 10 n).head? ≠ some '0' := by
  induction n using Nat.strongRecOn with
  | ind n ih =>
    by_cases hsmall : n < 10
    · rw [Nat.toDigits_of_lt_base hsmall]
      exact fun heq => digitChar_ne_zero n hsmall h (Option.some.inj heq)
    · -- the first digit is that of the tenth part
      have hbase : 10 ≤ n := Nat.le_of_not_lt hsmall
      have htenth := ih (n / 10) (Nat.div_lt_self h (by decide)) (Nat.div_pos hbase (by decide))
      obtain ⟨c, digits, heq⟩ :=
        List.exists_cons_of_ne_nil (Nat.toDigits_ne_nil (n := n / 10) (b := 10))
      rw [heq] at htenth
      rw [Nat.toDigits_of_base_le (by decide) hbase, heq]
      exact htenth

/-- Only zero starts with a zero, and has no other digit. -/
theorem toDigits_ne_zero_cons {n : Nat} {c : Char} {digits : List Char} :
    Nat.toDigits 10 n ≠ '0' :: c :: digits := by
  intro heq
  rcases Nat.eq_zero_or_pos n with rfl | hpos
  · rw [Nat.toDigits_zero] at heq
    cases heq
  · exact head?_toDigits hpos (by rw [heq]; rfl)

theorem digitsValue_toDigits (n : Nat) : digitsValue (Nat.toDigits 10 n) = n := by
  have hcomm : (fun (m : Nat) (c : Char) => m * 10 + (c.toNat - '0'.toNat))
      = fun m c => 10 * m + (c.toNat - '0'.toNat) := by
    funext m c
    rw [Nat.mul_comm]
  rw [digitsValue, hcomm, ← Nat.ofDigitChars_eq_foldl, Nat.ofDigitChars_ten_toDigits]

theorem readFraction_delimited {minus : Bool} {digits : List Char} (h : Delimited rest) :
    readFraction minus digits ⟨rest, offset⟩ =
      match Number.ofInteger minus (digitsValue digits) with
      | some number => .ok ⟨.number number, ⟨rest, offset⟩⟩
      | none => .error ⟨.numberOutOfRange, offset⟩ := by
  cases h <;> rfl

/-- **An integer is read as it was written**, from behind its sign. -/
theorem readNumber_toDigits {minus : Bool} {n : Nat} {number : Number} (h : Delimited rest)
    (hnumber : Number.ofInteger minus n = some number) (offset : Nat) :
    ∃ offset', readNumber minus ⟨Nat.toDigits 10 n ++ rest, offset⟩
      = .ok ⟨.number number, ⟨rest, offset'⟩⟩ := by
  obtain ⟨offset', htaken⟩ := takeDigits_toDigits n offset h
  refine ⟨offset', ?_⟩
  unfold readNumber
  rw [htaken]
  dsimp only
  split
  · next heq => exact absurd heq Nat.toDigits_ne_nil
  · next heq => exact absurd heq toDigits_ne_zero_cons
  · rw [readFraction_delimited h, digitsValue_toDigits, hnumber]

end FlowDesugar.Json
