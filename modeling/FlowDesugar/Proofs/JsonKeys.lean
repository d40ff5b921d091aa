import FlowDesugar.Json.Reader
import FlowDesugar.Proofs.Parts

/-!
# Keys of the objects that are read

A text can repeat a key, but what it is read as does not: a repeated key replaces the value and
keeps its place (`Fields.ofEntries_lawful`). So every object that is read has distinct keys, at any
depth, which is `distinctKeys_of_read`. `Yields` says of a reader that whatever it reads has a
property, and composes along the reader.
-/

namespace FlowDesugar.Json

/-! ### What is read -/

/-- Whatever is read has the property. -/
def Yields {α : Type} (p : α → Prop) (outcome : Except Failure (Parsed α)) : Prop :=
  ∀ a after, outcome = .ok ⟨a, after⟩ → p a

namespace Yields

variable {α β : Type} {p : α → Prop} {q : β → Prop} {outcome : Except Failure (Parsed α)}

theorem any : Yields (fun _ => True) outcome :=
  fun _ _ _ => trivial

theorem error {failure : Failure} : Yields p (.error failure) :=
  nofun

theorem ok {a : α} {after : Cursor} (h : p a) : Yields p (.ok ⟨a, after⟩) := by
  rintro _ _ ⟨⟩
  exact h

theorem bind {f : Parsed α → Except Failure (Parsed β)} (h : Yields p outcome)
    (h' : ∀ a after, p a → Yields q (f ⟨a, after⟩)) : Yields q (outcome >>= f) := by
  cases outcome with
  | error failure => exact .error
  | ok parsed => exact h' parsed.value parsed.after (h _ _ rfl)

end Yields

namespace Fields

variable {fields : Fields} {name : String} {value : Value}

theorem forall_mem_insert {p : Value → Prop} (h : ∀ field ∈ fields, p field.2) (hvalue : p value) :
    ∀ field ∈ fields.insert name value, p field.2 := by
  induction fields with
  | nil => exact List.forall_mem_singleton.mpr hvalue
  | cons field fields ih =>
    obtain ⟨key, old⟩ := field
    obtain ⟨hfirst, hrest⟩ := List.forall_mem_cons.mp h
    rw [insert]
    split
    · exact List.forall_mem_cons.mpr ⟨hvalue, hrest⟩
    · exact List.forall_mem_cons.mpr ⟨hfirst, ih hrest⟩

theorem mem_keys_insert {key : String} (h : key ∈ (fields.insert name value).map Prod.fst) :
    key = name ∨ key ∈ fields.map Prod.fst := by
  induction fields with
  | nil => exact .inl (List.mem_singleton.mp h)
  | cons field fields ih =>
    obtain ⟨first, old⟩ := field
    rw [insert] at h
    split at h
    · exact .inr h
    · rcases List.mem_cons.mp h with heq | hmem
      · rw [heq]
        exact .inr List.mem_cons_self
      · exact (ih hmem).imp_right (List.mem_cons_of_mem _)

theorem nodup_insert (h : (fields.map Prod.fst).Nodup) :
    ((fields.insert name value).map Prod.fst).Nodup := by
  induction fields with
  | nil => exact List.nodup_cons.mpr ⟨nofun, List.nodup_nil⟩
  | cons field fields ih =>
    obtain ⟨key, old⟩ := field
    obtain ⟨hnew, hrest⟩ := List.nodup_cons.mp h
    rw [insert]
    split
    · exact h
    · next hne =>
      -- the first key is neither the new one nor one of the others
      refine List.nodup_cons.mpr ⟨fun hmem => ?_, ih hrest⟩
      rcases mem_keys_insert hmem with heq | hold
      · exact hne heq
      · exact hnew hold

/-- The fields that entries denote have distinct keys, and values of the entries: the first entry
starts from no fields, and every entry keeps both. -/
theorem ofEntries_lawful {p : Value → Prop} {entries : Fields} (h : ∀ entry ∈ entries, p entry.2) :
    ((ofEntries entries).map Prod.fst).Nodup ∧ ∀ field ∈ ofEntries entries, p field.2 := by
  refine List.foldlRecOn (motive := fun fields : Fields =>
    (fields.map Prod.fst).Nodup ∧ ∀ field ∈ fields, p field.2) entries _
    ⟨List.nodup_nil, List.forall_mem_nil _⟩ ?_
  rintro fields ⟨hkeys, hvalues⟩ entry hentry
  exact ⟨nodup_insert hkeys, forall_mem_insert hvalues (h entry hentry)⟩

end Fields

section

variable {p : Value → Prop} {item : Cursor → Except Failure (Parsed Value)}
  (h : ∀ cursor, Yields p (item cursor))

include h

theorem yields_readItems (bound : Nat) (cursor : Cursor) :
    Yields (fun items => ∀ v ∈ items, p v) (readItems item bound cursor) := by
  induction bound generalizing cursor with
  | zero => exact .error
  | succ bound ih =>
    rw [readItems]
    dsimp only
    split
    · exact .error
    · exact .ok nofun
    · split
      · exact .error
      · exact .error
      · exact (h _).bind fun first after hfirst => (ih after).bind fun others after' hothers =>
          .ok (List.forall_mem_cons.mpr ⟨hfirst, hothers⟩)
    · exact .error

theorem yields_readArray (cursor : Cursor) :
    Yields (fun items => ∀ v ∈ items, p v) (readArray item cursor) := by
  rw [readArray]
  dsimp only
  split
  · exact .error
  · exact .ok nofun
  · exact (h _).bind fun first after hfirst =>
      (yields_readItems h _ after).bind fun others after' hothers =>
        .ok (List.forall_mem_cons.mpr ⟨hfirst, hothers⟩)

theorem yields_readEntry (cursor : Cursor) :
    Yields (fun entry => p entry.2) (readEntry item cursor) := by
  refine Yields.any.bind fun key after _ => ?_
  dsimp only
  split
  · exact .error
  · exact (h _).bind fun value after' hvalue => .ok hvalue
  · exact .error

theorem yields_readEntries (bound : Nat) (cursor : Cursor) :
    Yields (fun entries => ∀ entry ∈ entries, p entry.2) (readEntries item bound cursor) := by
  induction bound generalizing cursor with
  | zero => exact .error
  | succ bound ih =>
    rw [readEntries]
    dsimp only
    split
    · exact .error
    · exact .ok nofun
    · split
      · exact .error
      · exact .error
      · exact (yields_readEntry h _).bind fun first after hfirst =>
          (ih after).bind fun others after' hothers =>
            .ok (List.forall_mem_cons.mpr ⟨hfirst, hothers⟩)
      · exact .error
    · exact .error

theorem yields_readObject (cursor : Cursor) :
    Yields (fun entries => ∀ entry ∈ entries, p entry.2) (readObject item cursor) := by
  rw [readObject]
  dsimp only
  split
  · exact .error
  · exact .ok nofun
  · exact (yields_readEntry h _).bind fun first after hfirst =>
      (yields_readEntries h _ after).bind fun others after' hothers =>
        .ok (List.forall_mem_cons.mpr ⟨hfirst, hothers⟩)
  · exact .error

end

/-- The value is a number. -/
def Value.IsNumber (value : Value) : Prop :=
  ∃ number, value = .number number

theorem yields_double {minus : Bool} {mantissa : Nat} {exponent : Int} {cursor : Cursor} :
    Yields Value.IsNumber (double minus mantissa exponent cursor) := by
  rw [double]
  split
  · exact .ok ⟨_, rfl⟩
  · exact .error

theorem yields_readExponent {minus : Bool} {mantissa : Nat} {scale : Int} {cursor : Cursor} :
    Yields Value.IsNumber (readExponent minus mantissa scale cursor) := by
  rw [readExponent]
  dsimp only
  -- the three signs make no difference
  split <;>
  · split
    · exact .error
    · split
      · split
        · exact .error
        · exact .ok ⟨_, rfl⟩
      · exact yields_double

theorem yields_readFraction {minus : Bool} {whole : List Char} {cursor : Cursor} :
    Yields Value.IsNumber (readFraction minus whole cursor) := by
  rw [readFraction.eq_def]
  split
  · dsimp only
    split
    · split
      · exact .error
      · exact .error
    · split
      · exact yields_readExponent
      · exact yields_readExponent
      · exact yields_double
  · exact yields_readExponent
  · exact yields_readExponent
  · split
    · exact .ok ⟨_, rfl⟩
    · exact .error

theorem yields_readNumber (minus : Bool) (cursor : Cursor) :
    Yields Value.IsNumber (readNumber minus cursor) := by
  rw [readNumber]
  dsimp only
  split
  · exact .error
  · exact .error
  · exact yields_readFraction

theorem yields_readWord {p : Value → Prop} {value : Value} (h : p value) (letters : List Char)
    (cursor : Cursor) : Yields p (readWord value letters cursor) := by
  induction letters generalizing cursor with
  | nil => exact .ok h
  | cons letter letters ih =>
    rw [readWord.eq_def]
    dsimp only
    split
    · split
      · exact ih _
      · exact .error
    · exact .error

theorem Value.IsNumber.distinctKeys {value : Value} (h : value.IsNumber) :
    value.Everywhere Value.DistinctKeys := by
  obtain ⟨number, rfl⟩ := h
  exact ⟨trivial, nofun⟩

/-- **Objects that are read have distinct keys**, at every depth. -/
theorem yields_readValue (room : Nat) (cursor : Cursor) :
    Yields (Value.Everywhere Value.DistinctKeys) (readValue room cursor) := by
  induction room using Nat.strongRecOn generalizing cursor with
  | ind room ih =>
    rw [readValue.eq_def]
    dsimp only
    -- the cases are those of the first character
    split
    · exact .error
    · exact yields_readWord ⟨trivial, nofun⟩ _ _
    · exact yields_readWord ⟨trivial, nofun⟩ _ _
    · exact yields_readWord ⟨trivial, nofun⟩ _ _
    · exact Yields.any.bind fun text after _ => .ok ⟨trivial, nofun⟩
    · exact fun value after hread => (yields_readNumber _ _ value after hread).distinctKeys
    · split
      · exact .error
      · -- the items have less room, whatever they are
        next room =>
        refine (yields_readArray (ih room (Nat.lt_succ_self room)) _).bind fun items after hitems =>
          .ok (Value.everywhere_array.mpr ⟨trivial, hitems⟩)
    · split
      · exact .error
      · next room =>
        refine (yields_readObject (ih room (Nat.lt_succ_self room)) _).bind fun entries after h =>
          .ok (Value.everywhere_object.mpr ?_)
        -- keys may be repeated among the entries, but not among the fields
        exact Fields.ofEntries_lawful h
    · split
      · exact fun value after hread => (yields_readNumber _ _ value after hread).distinctKeys
      · exact .error

theorem distinctKeys_of_read {text : String} {value : Value} (h : read text = .ok value) :
    value.Everywhere Value.DistinctKeys := by
  have htext : readText text.toList = .ok value := by
    rw [read] at h
    split at h
    · next hread =>
      cases h
      exact hread
    · cases h
  rw [readText] at htext
  cases hread : readValue depthLimit ⟨text.toList, 0⟩ with
  | error failure =>
    rw [hread] at htext
    cases htext
  | ok parsed =>
    rw [hread] at htext
    dsimp only [bind, Except.bind] at htext
    -- behind the value there is nothing, or the text is refused
    split at htext
    · cases htext
      exact yields_readValue depthLimit _ parsed.value parsed.after hread
    · cases htext

end FlowDesugar.Json
