import FlowDesugar.Json.Path

/-!
# What is inside a JSON value

The items of an array and the values of an object's fields are inside it, and so is what is inside
these. Readers of values go from the outside in; facts about them go by `Value.inductionOnInside`,
which lets a fact about a value rest on the same fact about everything inside it, at any depth.

`Value.Everywhere p` says that a value and everything inside it has a property. The one that matters
most is `Value.DistinctKeys`: a text cannot denote an object with two fields of one name, although
`Value` has room for it. With distinct keys a field is found under its name
(`Fields.get?_of_mem`), and a path leads to one place only.
-/

namespace FlowDesugar.Json

/-! ### Fields -/

namespace Fields

variable {fields : Fields} {name : String} {value : Value}

theorem mem_of_get? (h : fields.get? name = some value) : (name, value) ∈ fields := by
  induction fields with
  | nil => cases h
  | cons field fields ih =>
    obtain ⟨key, first⟩ := field
    rw [get?] at h
    by_cases hkey : key = name
    · rw [if_pos hkey] at h
      obtain rfl := Option.some.inj h
      rw [hkey]
      exact List.mem_cons_self
    · rw [if_neg hkey] at h
      exact List.mem_cons_of_mem _ (ih h)

theorem get?_of_mem (hdistinct : (fields.map Prod.fst).Nodup) (h : (name, value) ∈ fields) :
    fields.get? name = some value := by
  induction fields with
  | nil => cases h
  | cons field fields ih =>
    obtain ⟨key, first⟩ := field
    rw [List.map_cons, List.nodup_cons] at hdistinct
    rw [get?]
    rcases List.mem_cons.mp h with heq | hmem
    · cases heq
      exact if_pos rfl
    · -- a field further on has another key than the first
      have hne : key ≠ name := by
        rintro rfl
        exact hdistinct.1 (List.mem_map.mpr ⟨_, hmem, rfl⟩)
      rw [if_neg hne]
      exact ih hdistinct.2 hmem

end Fields

/-! ### Inside -/

namespace Value

/-- The first value is inside the second, at any depth. -/
inductive Inside : Value → Value → Prop
  | item {part : Value} {items : List Value} : part ∈ items → Inside part (.array items)
  | field {key : String} {part : Value} {fields : Fields} :
    (key, part) ∈ fields → Inside part (.object fields)
  | inItem {inner part : Value} {items : List Value} :
    part ∈ items → Inside inner part → Inside inner (.array items)
  | inField {key : String} {inner part : Value} {fields : Fields} :
    (key, part) ∈ fields → Inside inner part → Inside inner (.object fields)

theorem Inside.trans {inner part value : Value} (h : inner.Inside part) (h' : part.Inside value) :
    inner.Inside value := by
  induction h' with
  | item hmem => exact .inItem hmem h
  | field hmem => exact .inField hmem h
  | inItem hmem _ ih => exact .inItem hmem (ih h)
  | inField hmem _ ih => exact .inField hmem (ih h)

theorem inside_of_get? {fields : Fields} {name : String} {part : Value}
    (h : fields.get? name = some part) : part.Inside (.object fields) :=
  .field (Fields.mem_of_get? h)

theorem sizeOf_lt_of_item {part : Value} {items : List Value} (h : part ∈ items) :
    sizeOf part < sizeOf (Value.array items) := by
  have hlt := List.sizeOf_lt_of_mem h
  rw [array.sizeOf_spec]
  omega

theorem sizeOf_lt_of_field {key : String} {part : Value} {fields : Fields}
    (h : (key, part) ∈ fields) : sizeOf part < sizeOf (Value.object fields) := by
  have hlt := List.sizeOf_lt_of_mem h
  rw [Prod.mk.sizeOf_spec] at hlt
  rw [object.sizeOf_spec]
  omega

theorem Inside.sizeOf_lt {part value : Value} (h : part.Inside value) :
    sizeOf part < sizeOf value := by
  induction h with
  | item hmem => exact sizeOf_lt_of_item hmem
  | field hmem => exact sizeOf_lt_of_field hmem
  | inItem hmem _ ih => exact Nat.lt_trans ih (sizeOf_lt_of_item hmem)
  | inField hmem _ ih => exact Nat.lt_trans ih (sizeOf_lt_of_field hmem)

/-- **Induction over values.** What holds of a value whenever it holds of everything inside holds of
every value. -/
theorem inductionOnInside {motive : Value → Prop}
    (value : ∀ v, (∀ part, part.Inside v → motive part) → motive v) (v : Value) : motive v :=
  value v fun part hpart =>
    have _smaller := hpart.sizeOf_lt
    inductionOnInside value part
termination_by sizeOf v

/-! ### Everywhere -/

/-- The value and everything inside it has the property. -/
structure Everywhere (p : Value → Prop) (value : Value) : Prop where
  own : p value
  parts : ∀ part, part.Inside value → p part

theorem Everywhere.inside {p : Value → Prop} {value part : Value} (h : value.Everywhere p)
    (hpart : part.Inside value) : part.Everywhere p :=
  ⟨h.parts part hpart, fun inner hinner => h.parts inner (.trans hinner hpart)⟩

theorem Everywhere.get? {p : Value → Prop} {fields : Fields} {name : String} {part : Value}
    (h : (Value.object fields).Everywhere p) (hget : fields.get? name = some part) :
    part.Everywhere p :=
  h.inside (inside_of_get? hget)

theorem everywhere_array {p : Value → Prop} {items : List Value} :
    (Value.array items).Everywhere p ↔ p (.array items) ∧ ∀ item ∈ items, item.Everywhere p := by
  constructor
  · intro h
    exact ⟨h.own, fun item hmem => h.inside (.item hmem)⟩
  · rintro ⟨hown, hitems⟩
    refine ⟨hown, fun part hpart => ?_⟩
    cases hpart with
    | item hmem => exact (hitems _ hmem).own
    | inItem hmem hinner => exact (hitems _ hmem).parts _ hinner

theorem everywhere_object {p : Value → Prop} {fields : Fields} :
    (Value.object fields).Everywhere p ↔
      p (.object fields) ∧ ∀ field ∈ fields, field.2.Everywhere p := by
  constructor
  · intro h
    exact ⟨h.own, fun field hmem => h.inside (.field hmem)⟩
  · rintro ⟨hown, hfields⟩
    refine ⟨hown, fun part hpart => ?_⟩
    cases hpart with
    | field hmem => exact (hfields _ hmem).own
    | inField hmem hinner => exact (hfields _ hmem).parts _ hinner

/-- The value is no object in which two fields have the same name. -/
def DistinctKeys : Value → Prop
  | .object fields => (fields.map Prod.fst).Nodup
  | _ => True

end Value

/-! ### Places -/

namespace Path

variable {root : Value} {path : Path}

theorem get?_root (root : Value) : Path.root.get? root = some root := rfl

/-- A field of the object at a place. -/
theorem get?_field {fields : Fields} {name : String} {value : Value}
    (hplace : path.get? root = some (.object fields)) (hfield : fields.get? name = some value) :
    (path.field name).get? root = some value := by
  unfold get? at hplace
  unfold get? field
  rw [List.foldl_append, hplace]
  exact hfield

/-- An item of the array at a place. -/
theorem get?_item {items : List Value} {index : Nat} {value : Value}
    (hplace : path.get? root = some (.array items)) (hitem : items[index]? = some value) :
    (path.item index).get? root = some value := by
  unfold get? at hplace
  unfold get? item
  rw [List.foldl_append, hplace]
  exact hitem

/-- The text of a path is a `$` and the texts of its steps. -/
theorem text_eq (path : Path) : path.text = "$" ++ String.join (path.steps.map Step.text) := by
  have hfold : ∀ (steps : List Step) (start : String),
      steps.foldl (fun text step => text ++ step.text) start
        = start ++ String.join (steps.map Step.text) := by
    intro steps
    induction steps with
    | nil => intro start; simp
    | cons step steps ih => intro start; simp [ih, String.append_assoc]
  exact hfold path.steps "$"

end Path

end FlowDesugar.Json
