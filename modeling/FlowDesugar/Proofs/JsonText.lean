import FlowDesugar.Proofs.Depth
import FlowDesugar.Proofs.JsonTokens

/-!
# Reading JSON that was written

The text of a value is read as the value, as long as the value is not nested too deeply; and if it
is, then that is the fault which is found. The two halves have to go together: a reader that is in
the middle of an array comes past the items before the one that is too deep.

`Takes fits a rest` describes what becomes of reading, in both cases, and composes along a reader
(`Takes.bind`).

* `Value.readsBack` — the text of a value is taken, at every level and with any room for nesting;
* `read_write_of_depth_le` and `read_write_of_depth_gt` — so is a whole text.

Values with doubles in them are left out: their texts are the shortest ones, and that reading these
gives the same double is another matter.
-/

namespace FlowDesugar.Json

/-- The value is no double. -/
def Value.Integral : Value → Prop
  | .number (.double _) => False
  | _ => True

/-! ### Outcomes -/

/-- The outcome of reading is `a`, with `rest` left to read, if it fits; otherwise it is that the
text is nested too deeply. -/
structure Takes {α : Type} (fits : Prop) (a : α) (rest : List Char)
    (outcome : Except Failure (Parsed α)) : Prop where
  ok : fits → ∃ offset, outcome = .ok ⟨a, ⟨rest, offset⟩⟩
  tooDeep : ¬ fits → ∃ offset, outcome = .error ⟨.tooDeep, offset⟩

namespace Takes

variable {α β : Type} {fits fits' : Prop} {a : α} {b : β} {rest rest' : List Char}
  {outcome : Except Failure (Parsed α)}

theorem of_ok (hfits : fits) {offset : Nat} (h : outcome = .ok ⟨a, ⟨rest, offset⟩⟩) :
    Takes fits a rest outcome :=
  ⟨fun _ => ⟨offset, h⟩, fun hnot => absurd hfits hnot⟩

theorem of_tooDeep (hnot : ¬ fits) {offset : Nat} (h : outcome = .error ⟨.tooDeep, offset⟩) :
    Takes fits a rest outcome :=
  ⟨fun hfits => absurd hfits hnot, fun _ => ⟨offset, h⟩⟩

theorem congr (hiff : fits ↔ fits') (h : Takes fits a rest outcome) :
    Takes fits' a rest outcome :=
  ⟨fun hfits => h.ok (hiff.mpr hfits), fun hnot => h.tooDeep fun hfits => hnot (hiff.mp hfits)⟩

/-- One part after another. If the first is too deep, the second is not looked at. -/
theorem bind {f : Parsed α → Except Failure (Parsed β)} (h : Takes fits a rest outcome)
    (h' : ∀ offset, Takes fits' b rest' (f ⟨a, ⟨rest, offset⟩⟩)) :
    Takes (fits ∧ fits') b rest' (outcome >>= f) := by
  by_cases hfits : fits
  · obtain ⟨offset, rfl⟩ := h.ok hfits
    exact (h' offset).congr (and_iff_right hfits).symm
  · obtain ⟨offset, rfl⟩ := h.tooDeep hfits
    exact .of_tooDeep (fun hboth => hfits hboth.1) rfl

/-- A part, put into a larger one. -/
theorem map {g : α → β} (h : Takes fits a rest outcome) :
    Takes fits (g a) rest (outcome >>= fun parsed => pure ⟨g parsed.value, parsed.after⟩) := by
  have hboth : Takes (fits ∧ True) (g a) rest
      (outcome >>= fun parsed => pure ⟨g parsed.value, parsed.after⟩) :=
    h.bind fun offset => .of_ok trivial rfl
  exact hboth.congr (and_iff_left trivial)

end Takes

variable {rest : List Char} {offset level room : Nat}

/-! ### Values by their first character -/

theorem readValue_skip {c : Char} (h : isBlank c = true) :
    readValue room ⟨c :: rest, offset⟩ = readValue room ⟨rest, offset + 1⟩ := by
  have hskip : skipBlanks ⟨c :: rest, offset⟩ = skipBlanks ⟨rest, offset + 1⟩ := by
    unfold skipBlanks
    rw [List.dropWhile_cons_of_pos h, List.takeWhile_cons_of_pos h, List.length_cons]
    change Cursor.mk _ (offset + (_ + 1)) = Cursor.mk _ (offset + 1 + _)
    rw [Nat.add_right_comm, Nat.add_assoc]
  rw [readValue.eq_def, readValue.eq_def, hskip]

theorem readValue_null : readValue room ⟨'n' :: 'u' :: 'l' :: 'l' :: rest, offset⟩
    = .ok ⟨.null, ⟨rest, offset + 1 + 1 + 1 + 1⟩⟩ := by
  rw [readValue.eq_def]
  rfl

theorem readValue_true : readValue room ⟨'t' :: 'r' :: 'u' :: 'e' :: rest, offset⟩
    = .ok ⟨.bool true, ⟨rest, offset + 1 + 1 + 1 + 1⟩⟩ := by
  rw [readValue.eq_def]
  rfl

theorem readValue_false : readValue room ⟨'f' :: 'a' :: 'l' :: 's' :: 'e' :: rest, offset⟩
    = .ok ⟨.bool false, ⟨rest, offset + 1 + 1 + 1 + 1 + 1⟩⟩ := by
  rw [readValue.eq_def]
  rfl

theorem readValue_quote : readValue room ⟨'"' :: rest, offset⟩
    = (readString [] (offset + 1) rest >>= fun parsed =>
        pure ⟨.string parsed.value, parsed.after⟩) := by
  rw [readValue.eq_def]
  rfl

theorem readValue_minus : readValue room ⟨'-' :: rest, offset⟩
    = readNumber true ⟨rest, offset + 1⟩ := by
  rw [readValue.eq_def]
  rfl

theorem readValue_array : readValue (room + 1) ⟨'[' :: rest, offset⟩
    = (readArray (readValue room) ⟨rest, offset + 1⟩ >>= fun parsed =>
        pure ⟨.array parsed.value, parsed.after⟩) := by
  rw [readValue.eq_def]
  rfl

theorem readValue_object : readValue (room + 1) ⟨'{' :: rest, offset⟩
    = (readObject (readValue room) ⟨rest, offset + 1⟩ >>= fun parsed =>
        pure ⟨.object (Fields.ofEntries parsed.value), parsed.after⟩) := by
  rw [readValue.eq_def]
  rfl

theorem readValue_array_zero : readValue 0 ⟨'[' :: rest, offset⟩
    = .error ⟨.tooDeep, offset + 1⟩ := by
  rw [readValue.eq_def]
  rfl

theorem readValue_object_zero : readValue 0 ⟨'{' :: rest, offset⟩
    = .error ⟨.tooDeep, offset + 1⟩ := by
  rw [readValue.eq_def]
  rfl

theorem readValue_digit {c : Char} (h : isDigit c = true) :
    readValue room ⟨c :: rest, offset⟩ = readNumber false ⟨c :: rest, offset⟩ := by
  rw [readValue.eq_def, skipBlanks_of_not_blank (not_isBlank_of_isDigit h)]
  dsimp only
  split
  case h_1 heq => cases heq
  -- the last case is for what is none of the characters before, and asks for a digit
  case h_9 heq =>
    cases heq
    rw [if_pos h]
  all_goals next heq => exact absurd (List.cons.inj heq).1 (ne_of_isDigit h rfl)

/-! ### Loops over items and entries, step by step -/

section

variable {item : Cursor → Except Failure (Parsed Value)} {cursor after : Cursor} {bound : Nat}
  {c : Char} {chars : List Char}

/-- The first item of an array, and then the others. -/
theorem readArray_first (hskip : skipBlanks cursor = ⟨c :: chars, offset⟩) (hc : c ≠ ']') :
    readArray item cursor = (item ⟨c :: chars, offset⟩ >>= fun first =>
      readItems item (first.after.rest.length + 1) first.after >>= fun others =>
        pure ⟨first.value :: others.value, others.after⟩) := by
  rw [readArray, hskip]
  dsimp only
  split
  · next heq => cases heq
  · next heq => exact absurd (List.cons.inj heq).1 hc
  · rfl

theorem readItems_close (hskip : skipBlanks cursor = ⟨']' :: rest, offset⟩) :
    readItems item (bound + 1) cursor = .ok ⟨[], ⟨rest, offset + 1⟩⟩ := by
  rw [readItems, hskip]
  rfl

/-- A comma and another item. -/
theorem readItems_comma {offset' : Nat}
    (hskip : skipBlanks ⟨rest, offset + 1⟩ = ⟨c :: chars, offset'⟩) (hc : c ≠ ']') :
    readItems item (bound + 1) ⟨',' :: rest, offset⟩ = (item ⟨c :: chars, offset'⟩ >>= fun first =>
      readItems item bound first.after >>= fun others =>
        pure ⟨first.value :: others.value, others.after⟩) := by
  rw [readItems, skipBlanks_of_not_blank rfl]
  simp only [hskip]
  split
  · next heq => cases heq
  · next heq => exact absurd (List.cons.inj heq).1 hc
  · rfl

/-- The first entry of an object, and then the others. -/
theorem readObject_first (hskip : skipBlanks cursor = ⟨'"' :: chars, offset⟩) :
    readObject item cursor = (readEntry item ⟨chars, offset + 1⟩ >>= fun first =>
      readEntries item (first.after.rest.length + 1) first.after >>= fun others =>
        pure ⟨first.value :: others.value, others.after⟩) := by
  rw [readObject, hskip]
  rfl

theorem readEntries_close (hskip : skipBlanks cursor = ⟨'}' :: rest, offset⟩) :
    readEntries item (bound + 1) cursor = .ok ⟨[], ⟨rest, offset + 1⟩⟩ := by
  rw [readEntries, hskip]
  rfl

/-- A comma and another entry. -/
theorem readEntries_comma {offset' : Nat}
    (hskip : skipBlanks ⟨rest, offset + 1⟩ = ⟨'"' :: chars, offset'⟩) :
    readEntries item (bound + 1) ⟨',' :: rest, offset⟩ =
      (readEntry item ⟨chars, offset' + 1⟩ >>= fun first =>
        readEntries item bound first.after >>= fun others =>
          pure ⟨first.value :: others.value, others.after⟩) := by
  rw [readEntries, skipBlanks_of_not_blank rfl]
  simp only [hskip]

end

/-! ### Arrays -/

/-- The text of the value is taken, at every level and with any room for nesting. It starts with no
white space, and with nothing that closes an array. -/
structure Value.ReadsBack (value : Value) : Prop where
  starts : ∀ level, ∃ c chars, value.lines level = c :: chars ∧ isBlank c = false ∧ c ≠ ']'
  taken : ∀ level room rest offset, Delimited rest →
    Takes (value.depth ≤ room) value rest (readValue room ⟨value.lines level ++ rest, offset⟩)

/-- A value on a line of its own is found behind the white space, and is not the end of an array. -/
theorem Value.ReadsBack.skipBlanks_newline {value : Value} (h : value.ReadsBack)
    (level offset : Nat) (text : List Char) :
    ∃ c chars offset', skipBlanks ⟨newline level ++ (value.lines level ++ text), offset⟩
      = ⟨c :: chars, offset'⟩ ∧ c :: chars = value.lines level ++ text ∧ c ≠ ']' := by
  obtain ⟨c, chars, hlines, hblank, hc⟩ := h.starts level
  rw [hlines, List.cons_append]
  obtain ⟨offset', hskip⟩ : ∃ offset', skipBlanks ⟨newline level ++ c :: (chars ++ text), offset⟩
      = ⟨c :: (chars ++ text), offset'⟩ := Json.skipBlanks_newline hblank
  exact ⟨c, chars ++ text, offset', hskip, rfl, hc⟩

/-- The lines of the items behind the first, each with its comma. -/
def itemsBehind (level : Nat) : List Value → List Char
  | [] => []
  | item :: items => ',' :: (newline level ++ (item.lines level ++ itemsBehind level items))

theorem itemLines_cons (level : Nat) (item : Value) (items : List Value) :
    itemLines level (item :: items)
      = newline level ++ (item.lines level ++ itemsBehind level items) := by
  induction items generalizing item with
  | nil => rw [itemLines, itemsBehind, List.append_nil]
  | cons next items ih =>
    -- the comma is written between two items, and counted to the second
    rw [itemLines, ih, itemsBehind, List.append_assoc]
    exact List.cons_ne_nil _ _

theorem length_le_itemsBehind (level : Nat) (items : List Value) :
    items.length ≤ (itemsBehind level items).length := by
  induction items with
  | nil => exact Nat.zero_le _
  | cons item items ih =>
    rw [itemsBehind, List.length_cons, List.length_cons, List.length_append, List.length_append]
    omega

theorem delimited_itemsBehind (items : List Value) {outer : Nat} :
    Delimited (itemsBehind level items ++ (newline outer ++ rest)) := by
  cases items with
  | nil => exact delimited_newline
  | cons item items => exact .comma

/-- The items of an array behind the first, up to the closing bracket. -/
theorem takes_readItems {items : List Value} (h : ∀ item ∈ items, item.ReadsBack)
    {outer bound : Nat} (hbound : items.length < bound) :
    Takes (∀ item ∈ items, item.depth ≤ room) items rest
      (readItems (readValue room) bound
        ⟨itemsBehind level items ++ (newline outer ++ ']' :: rest), offset⟩) := by
  induction items generalizing bound offset with
  | nil =>
    obtain ⟨bound, rfl⟩ := Nat.exists_eq_succ_of_ne_zero (Nat.ne_zero_of_lt hbound)
    obtain ⟨offset', hskip⟩ : ∃ offset', skipBlanks ⟨newline outer ++ ']' :: rest, offset⟩
        = ⟨']' :: rest, offset'⟩ := skipBlanks_newline rfl
    exact .of_ok nofun (readItems_close hskip)
  | cons item items ih =>
    obtain ⟨bound, rfl⟩ := Nat.exists_eq_succ_of_ne_zero (Nat.ne_zero_of_lt hbound)
    obtain ⟨hitem, hitems⟩ := List.forall_mem_cons.mp h
    obtain ⟨c, chars, offset', hskip, hlines, hc⟩ := hitem.skipBlanks_newline level (offset + 1)
      (itemsBehind level items ++ (newline outer ++ ']' :: rest))
    rw [itemsBehind, List.cons_append, List.append_assoc, List.append_assoc,
      readItems_comma hskip hc, hlines, List.forall_mem_cons]
    -- the item, and then the others in what is left of the text
    exact (hitem.taken _ _ _ _ (delimited_itemsBehind items)).bind fun offset =>
      (ih hitems (Nat.lt_of_succ_lt_succ hbound)).map

/-- The items of an array, between its brackets. -/
theorem takes_readArray {items : List Value} (h : ∀ item ∈ items, item.ReadsBack) {outer : Nat}
    (hne : items ≠ []) :
    Takes (∀ item ∈ items, item.depth ≤ room) items rest
      (readArray (readValue room) ⟨itemLines level items ++ (newline outer ++ ']' :: rest), offset⟩)
    := by
  obtain ⟨item, items, rfl⟩ := List.exists_cons_of_ne_nil hne
  obtain ⟨hitem, hitems⟩ := List.forall_mem_cons.mp h
  obtain ⟨c, chars, offset', hskip, hlines, hc⟩ := hitem.skipBlanks_newline level offset
    (itemsBehind level items ++ (newline outer ++ ']' :: rest))
  rw [itemLines_cons, List.append_assoc, List.append_assoc, readArray_first hskip hc, hlines,
    List.forall_mem_cons]
  refine (hitem.taken _ _ _ _ (delimited_itemsBehind items)).bind fun offset =>
    (takes_readItems hitems ?_).map
  -- every item has a comma to itself, so that the bound is enough
  have hlength := length_le_itemsBehind level items
  rw [List.length_append]
  omega

theorem lines_array {items : List Value} (hne : items ≠ []) (level : Nat) :
    (Value.array items).lines level
      = '[' :: (itemLines (level + 1) items ++ (newline level ++ [']'])) := by
  rw [Value.lines, List.cons_append, List.cons_append, List.append_assoc]
  exact hne

theorem exists_lines_array (items : List Value) (level : Nat) :
    ∃ chars, (Value.array items).lines level = '[' :: chars := by
  by_cases hempty : items = []
  · rw [hempty, Value.lines]
    exact ⟨_, rfl⟩
  · exact ⟨_, lines_array hempty level⟩

/-- **An array is taken** if its items are. -/
theorem readsBack_array {items : List Value} (h : ∀ item ∈ items, item.ReadsBack) :
    (Value.array items).ReadsBack where
  starts level := by
    obtain ⟨chars, hlines⟩ := exists_lines_array items level
    exact ⟨'[', chars, hlines, rfl, by decide⟩
  taken level room rest offset hrest := by
    cases room with
    | zero =>
      -- the bracket alone is one level too many
      obtain ⟨chars, hlines⟩ := exists_lines_array items level
      rw [hlines]
      exact .of_tooDeep (Nat.not_succ_le_zero _) readValue_array_zero
    | succ room =>
      rw [Value.depth_array_le]
      by_cases hempty : items = []
      · subst hempty
        rw [Value.lines, List.cons_append, readValue_array]
        exact .of_ok nofun rfl
      · rw [lines_array hempty, List.cons_append, readValue_array, List.append_assoc,
          List.append_assoc]
        exact (takes_readArray h hempty).map

/-! ### Objects -/

/-- An entry, from behind the opening quote of its key. -/
theorem takes_readEntry {key : String} {value : Value} (h : value.ReadsBack)
    (hrest : Delimited rest) :
    Takes (value.depth ≤ room) (key, value) rest
      (readEntry (readValue room)
        ⟨key.toList.flatMap escapeChar ++ '"' :: ':' :: ' ' :: (value.lines level ++ rest), offset⟩)
    := by
  obtain ⟨offset', hkey⟩ :=
    readString_written [] offset key.toList (':' :: ' ' :: (value.lines level ++ rest))
  have hcolon : readEntry (readValue room)
        ⟨key.toList.flatMap escapeChar ++ '"' :: ':' :: ' ' :: (value.lines level ++ rest), offset⟩
      = (readValue room ⟨value.lines level ++ rest, offset' + 1 + 1⟩ >>= fun parsed =>
          pure ⟨(key, parsed.value), parsed.after⟩) := by
    have hblank : readValue room ⟨' ' :: (value.lines level ++ rest), offset' + 1⟩
        = readValue room ⟨value.lines level ++ rest, offset' + 1 + 1⟩ := readValue_skip rfl
    rw [readEntry, hkey, List.reverse_nil, List.nil_append, String.ofList_toList, ← hblank]
    rfl
  rw [hcolon]
  exact (h.taken level room rest _ hrest).map

/-- The lines of the fields behind the first, each with its comma. -/
def fieldsBehind (level : Nat) : Fields → List Char
  | [] => []
  | (key, value) :: fields =>
    ',' :: (newline level ++ (quoted key ++ ':' :: ' ' :: (value.lines level
      ++ fieldsBehind level fields)))

theorem fieldLines_cons (level : Nat) (key : String) (value : Value) (fields : Fields) :
    fieldLines level ((key, value) :: fields)
      = newline level ++ (quoted key ++ ':' :: ' ' :: (value.lines level
          ++ fieldsBehind level fields)) := by
  induction fields generalizing key value with
  | nil => rw [fieldLines, fieldsBehind, List.append_nil, List.append_assoc]
  | cons next fields ih =>
    obtain ⟨key', value'⟩ := next
    rw [fieldLines, ih, fieldsBehind]
    · simp only [List.append_assoc, List.cons_append]
    · exact List.cons_ne_nil _ _

theorem length_le_fieldsBehind (level : Nat) (fields : Fields) :
    fields.length ≤ (fieldsBehind level fields).length := by
  induction fields with
  | nil => exact Nat.zero_le _
  | cons field fields ih =>
    simp only [fieldsBehind, List.length_cons, List.length_append]
    omega

theorem delimited_fieldsBehind (fields : Fields) {outer : Nat} :
    Delimited (fieldsBehind level fields ++ (newline outer ++ rest)) := by
  cases fields with
  | nil => exact delimited_newline
  | cons field fields => exact .comma

/-- The key of a field, and what follows it. -/
theorem skipBlanks_newline_quoted (level offset : Nat) (key : String) (text : List Char) :
    ∃ offset', skipBlanks ⟨newline level ++ (quoted key ++ text), offset⟩
      = ⟨'"' :: (key.toList.flatMap escapeChar ++ '"' :: text), offset'⟩ := by
  rw [quoted, List.cons_append, List.cons_append, List.append_assoc]
  exact skipBlanks_newline rfl

/-- The entries of an object behind the first, up to the closing brace. -/
theorem takes_readEntries {fields : Fields} (h : ∀ field ∈ fields, field.2.ReadsBack)
    {outer bound : Nat} (hbound : fields.length < bound) :
    Takes (∀ field ∈ fields, field.2.depth ≤ room) fields rest
      (readEntries (readValue room) bound
        ⟨fieldsBehind level fields ++ (newline outer ++ '}' :: rest), offset⟩) := by
  induction fields generalizing bound offset with
  | nil =>
    obtain ⟨bound, rfl⟩ := Nat.exists_eq_succ_of_ne_zero (Nat.ne_zero_of_lt hbound)
    obtain ⟨offset', hskip⟩ : ∃ offset', skipBlanks ⟨newline outer ++ '}' :: rest, offset⟩
        = ⟨'}' :: rest, offset'⟩ := skipBlanks_newline rfl
    exact .of_ok nofun (readEntries_close hskip)
  | cons field fields ih =>
    obtain ⟨key, value⟩ := field
    obtain ⟨bound, rfl⟩ := Nat.exists_eq_succ_of_ne_zero (Nat.ne_zero_of_lt hbound)
    obtain ⟨hvalue, hfields⟩ := List.forall_mem_cons.mp h
    -- the text from left to right: the comma, the key, the value, and the other fields
    have hassoc : fieldsBehind level ((key, value) :: fields) ++ (newline outer ++ '}' :: rest)
        = ',' :: (newline level ++ (quoted key ++ ':' :: ' ' :: (value.lines level
            ++ (fieldsBehind level fields ++ (newline outer ++ '}' :: rest))))) := by
      simp only [fieldsBehind, List.append_assoc, List.cons_append]
    obtain ⟨offset', hskip⟩ := skipBlanks_newline_quoted level (offset + 1) key
      (':' :: ' ' :: (value.lines level
        ++ (fieldsBehind level fields ++ (newline outer ++ '}' :: rest))))
    rw [hassoc, readEntries_comma hskip, List.forall_mem_cons]
    exact (takes_readEntry hvalue (delimited_fieldsBehind fields)).bind fun offset =>
      (ih hfields (Nat.lt_of_succ_lt_succ hbound)).map

/-- The entries of an object, between its braces. -/
theorem takes_readObject {fields : Fields} (h : ∀ field ∈ fields, field.2.ReadsBack) {outer : Nat}
    (hne : fields ≠ []) :
    Takes (∀ field ∈ fields, field.2.depth ≤ room) fields rest
      (readObject (readValue room)
        ⟨fieldLines level fields ++ (newline outer ++ '}' :: rest), offset⟩) := by
  obtain ⟨⟨key, value⟩, fields, rfl⟩ := List.exists_cons_of_ne_nil hne
  obtain ⟨hvalue, hfields⟩ := List.forall_mem_cons.mp h
  have hassoc : fieldLines level ((key, value) :: fields) ++ (newline outer ++ '}' :: rest)
      = newline level ++ (quoted key ++ ':' :: ' ' :: (value.lines level
          ++ (fieldsBehind level fields ++ (newline outer ++ '}' :: rest)))) := by
    simp only [fieldLines_cons, List.append_assoc, List.cons_append]
  obtain ⟨offset', hskip⟩ := skipBlanks_newline_quoted level offset key
    (':' :: ' ' :: (value.lines level
      ++ (fieldsBehind level fields ++ (newline outer ++ '}' :: rest))))
  rw [hassoc, readObject_first hskip, List.forall_mem_cons]
  refine (takes_readEntry hvalue (delimited_fieldsBehind fields)).bind fun offset =>
    (takes_readEntries hfields ?_).map
  have hlength := length_le_fieldsBehind level fields
  rw [List.length_append]
  omega

namespace Fields

theorem insert_of_not_mem {fields : Fields} {name : String} {value : Value}
    (h : name ∉ fields.map Prod.fst) : fields.insert name value = fields ++ [(name, value)] := by
  induction fields with
  | nil => rfl
  | cons field fields ih =>
    obtain ⟨key, old⟩ := field
    rw [List.map_cons, List.mem_cons, not_or] at h
    rw [insert, if_neg (Ne.symm h.1), ih h.2, List.cons_append]

/-- Entries with distinct keys are the fields that they denote. -/
theorem ofEntries_eq_self {entries : Fields} (h : (entries.map Prod.fst).Nodup) :
    ofEntries entries = entries := by
  have hfold : ∀ (entries fields : Fields), ((fields ++ entries).map Prod.fst).Nodup →
      entries.foldl (fun fields entry => insert fields entry.1 entry.2) fields
        = fields ++ entries := by
    intro entries
    induction entries with
    | nil => exact fun fields _ => (List.append_nil fields).symm
    | cons entry entries ih =>
      intro fields hdistinct
      rw [List.append_cons] at hdistinct ⊢
      -- the key of the next entry is new to the fields so far
      have hnew : entry.1 ∉ fields.map Prod.fst := by
        rw [List.map_append, List.map_append] at hdistinct
        have hfront := (List.nodup_append.mp (List.nodup_append.mp hdistinct).1).2.2
        exact fun hmem => hfront _ hmem _ List.mem_cons_self rfl
      rw [List.foldl_cons, insert_of_not_mem hnew]
      exact ih _ hdistinct
  exact hfold entries [] h

end Fields

theorem lines_object {fields : Fields} (hne : fields ≠ []) (level : Nat) :
    (Value.object fields).lines level
      = '{' :: (fieldLines (level + 1) fields ++ (newline level ++ ['}'])) := by
  rw [Value.lines, List.cons_append, List.cons_append, List.append_assoc]
  exact hne

theorem exists_lines_object (fields : Fields) (level : Nat) :
    ∃ chars, (Value.object fields).lines level = '{' :: chars := by
  by_cases hempty : fields = []
  · rw [hempty, Value.lines]
    exact ⟨_, rfl⟩
  · exact ⟨_, lines_object hempty level⟩

/-- **An object is taken** if the values of its fields are and its keys are distinct. -/
theorem readsBack_object {fields : Fields} (hkeys : (fields.map Prod.fst).Nodup)
    (h : ∀ field ∈ fields, field.2.ReadsBack) : (Value.object fields).ReadsBack where
  starts level := by
    obtain ⟨chars, hlines⟩ := exists_lines_object fields level
    exact ⟨'{', chars, hlines, rfl, by decide⟩
  taken level room rest offset hrest := by
    cases room with
    | zero =>
      obtain ⟨chars, hlines⟩ := exists_lines_object fields level
      rw [hlines]
      exact .of_tooDeep (Nat.not_succ_le_zero _) readValue_object_zero
    | succ room =>
      rw [Value.depth_object_le]
      by_cases hempty : fields = []
      · subst hempty
        rw [Value.lines, List.cons_append, readValue_object]
        exact .of_ok nofun rfl
      · rw [lines_object hempty, List.cons_append, readValue_object, List.append_assoc,
          List.append_assoc]
        -- what is read are entries, and they are the fields because their keys are distinct
        have hobject : Value.object fields = .object (Fields.ofEntries fields) := by
          rw [Fields.ofEntries_eq_self hkeys]
        rw [hobject]
        exact Takes.map (g := fun entries => Value.object (Fields.ofEntries entries))
          (takes_readObject h hempty)

/-! ### Values and texts -/

theorem readsBack_null : Value.null.ReadsBack where
  starts level := ⟨'n', _, by rw [Value.lines], rfl, by decide⟩
  taken level room rest offset _ := by
    rw [Value.lines]
    exact .of_ok (Nat.zero_le room) readValue_null

theorem readsBack_bool (value : Bool) : (Value.bool value).ReadsBack := by
  cases value with
  | true =>
    refine ⟨fun level => ⟨'t', _, by rw [Value.lines], rfl, by decide⟩, ?_⟩
    intro level room rest offset _
    rw [Value.lines]
    exact .of_ok (Nat.zero_le room) readValue_true
  | false =>
    refine ⟨fun level => ⟨'f', _, by rw [Value.lines], rfl, by decide⟩, ?_⟩
    intro level room rest offset _
    rw [Value.lines]
    exact .of_ok (Nat.zero_le room) readValue_false

theorem readsBack_string (text : String) : (Value.string text).ReadsBack where
  starts level := ⟨'"', _, by rw [Value.lines, quoted, List.cons_append], rfl, by decide⟩
  taken level room rest offset _ := by
    obtain ⟨offset', hread⟩ := readString_written [] (offset + 1) text.toList rest
    rw [List.reverse_nil, List.nil_append, String.ofList_toList] at hread
    rw [Value.lines, quoted, List.cons_append, List.cons_append, List.append_assoc,
      List.singleton_append, readValue_quote, hread]
    exact .of_ok (Nat.zero_le room) rfl

theorem readsBack_natural (value : UInt64) : (Value.number (.natural value)).ReadsBack := by
  have hlines : ∀ level, (Value.number (.natural value)).lines level
      = Nat.toDigits 10 value.toNat := by
    intro level
    rw [Value.lines, Number.text, Number.naturalText, String.toList_ofList]
  have hnumber : Number.ofInteger false value.toNat = some (.natural value) := by
    rw [Number.ofInteger, if_neg Bool.false_ne_true, dif_pos value.toNat_lt_size,
      UInt64.ofNatLT_toNat]
  obtain ⟨c, digits, hdigits⟩ :=
    List.exists_cons_of_ne_nil (Nat.toDigits_ne_nil (n := value.toNat) (b := 10))
  have hc : isDigit c = true := by
    refine isDigit_of_mem_toDigits (n := value.toNat) ?_
    rw [hdigits]
    exact List.mem_cons_self
  refine ⟨fun level => ⟨c, digits, ?_, ?_, ?_⟩, fun level room rest offset hrest => ?_⟩
  · rw [hlines, hdigits]
  · exact not_isBlank_of_isDigit hc
  · exact ne_of_isDigit hc rfl
  · obtain ⟨offset', hread⟩ := readNumber_toDigits hrest hnumber offset
    rw [hdigits, List.cons_append, ← readValue_digit hc] at hread
    rw [hlines, hdigits]
    exact .of_ok (Nat.zero_le room) hread

theorem readsBack_negative (magnitude : Nat)
    (bound : 0 < magnitude ∧ magnitude ≤ Nat.pow 2 63) :
    (Value.number (.negative magnitude bound)).ReadsBack := by
  have hlines : ∀ level, (Value.number (.negative magnitude bound)).lines level
      = '-' :: Nat.toDigits 10 magnitude := by
    intro level
    rw [Value.lines, Number.text, Number.naturalText, String.toList_append, String.toList_ofList,
      String.toList_ofList]
    rfl
  have hnumber : Number.ofInteger true magnitude = some (.negative magnitude bound) := by
    rw [Number.ofInteger, if_pos rfl, dif_pos bound]
  refine ⟨fun level => ⟨'-', _, hlines level, rfl, by decide⟩,
    fun level room rest offset hrest => ?_⟩
  obtain ⟨offset', hread⟩ := readNumber_toDigits hrest hnumber (offset + 1)
  rw [hlines, List.cons_append, readValue_minus]
  exact .of_ok (Nat.zero_le room) hread

/-- **The text of a value is taken** at every level, if its keys are distinct and it has no doubles
in it. -/
theorem Value.readsBack {value : Value} (hkeys : value.Everywhere Value.DistinctKeys)
    (hintegral : value.Everywhere Value.Integral) : value.ReadsBack := by
  induction value using Value.inductionOnInside with
  | value value ih =>
    have hparts : ∀ part : Value, part.Inside value → part.ReadsBack :=
      fun part hpart => ih part hpart (hkeys.inside hpart) (hintegral.inside hpart)
    cases value with
    | null => exact readsBack_null
    | bool value => exact readsBack_bool value
    | number number =>
      cases number with
      | natural value => exact readsBack_natural value
      | negative magnitude bound => exact readsBack_negative magnitude bound
      | double value => exact hintegral.own.elim
    | string text => exact readsBack_string text
    | array items => exact readsBack_array fun item hmem => hparts item (.item hmem)
    | object fields =>
      exact readsBack_object hkeys.own fun field hmem => hparts field.2 (.field hmem)

section

variable {value : Value} (hkeys : value.Everywhere Value.DistinctKeys)
  (hintegral : value.Everywhere Value.Integral)

include hkeys hintegral

/-- **A text that was written is read** as the value that it was written for. -/
theorem read_write_of_depth_le (h : value.depth ≤ depthLimit) : read (write value) = .ok value := by
  obtain ⟨offset, hread⟩ :=
    ((value.readsBack hkeys hintegral).taken 0 depthLimit ['\n'] 0 .line).ok h
  have htext : readText (write value).toList = .ok value := by
    rw [write, String.toList_ofList, readText, hread]
    rfl
  rw [read, htext]

/-- **A text that was written for a value too deep** is refused for its depth. -/
theorem read_write_of_depth_gt (h : depthLimit < value.depth) :
    ∃ error, read (write value) = .error error ∧ error.fault = .tooDeep := by
  obtain ⟨offset, hread⟩ :=
    ((value.readsBack hkeys hintegral).taken 0 depthLimit ['\n'] 0 .line).tooDeep (Nat.not_le.mpr h)
  have htext : readText (write value).toList = .error ⟨.tooDeep, offset⟩ := by
    rw [write, String.toList_ofList, readText, hread]
    rfl
  rw [read, htext]
  exact ⟨_, rfl, rfl⟩

end

end FlowDesugar.Json
