import FlowDesugar.Proofs.Parts

/-!
# How deep a JSON value is nested

`Value.depth` is the greatest number of arrays and objects of a value that are open at once when it
is gone through. That is what a reader has to keep count of.
-/

namespace FlowDesugar.Json

mutual

/-- The greatest number of arrays and objects that are open at once. -/
def Value.depth : Value → Nat
  | .array items => depthOfItems items + 1
  | .object fields => depthOfFields fields + 1
  | _ => 0

/-- The greatest depth among items. -/
def depthOfItems : List Value → Nat
  | [] => 0
  | item :: items => max item.depth (depthOfItems items)

/-- The greatest depth among the values of fields. -/
def depthOfFields : List (String × Value) → Nat
  | [] => 0
  | (_, value) :: fields => max value.depth (depthOfFields fields)

end

variable {n : Nat}

theorem depthOfItems_le {items : List Value} :
    depthOfItems items ≤ n ↔ ∀ item ∈ items, item.depth ≤ n := by
  induction items with
  | nil => exact ⟨nofun, fun _ => Nat.zero_le n⟩
  | cons item items ih => rw [depthOfItems, Nat.max_le, ih, List.forall_mem_cons]

theorem depthOfFields_le {fields : Fields} :
    depthOfFields fields ≤ n ↔ ∀ field ∈ fields, field.2.depth ≤ n := by
  induction fields with
  | nil => exact ⟨nofun, fun _ => Nat.zero_le n⟩
  | cons field fields ih => rw [depthOfFields, Nat.max_le, ih, List.forall_mem_cons]

namespace Value

@[simp] theorem depth_string (text : String) : (Value.string text).depth = 0 := rfl

theorem depth_array_le {items : List Value} :
    (Value.array items).depth ≤ n + 1 ↔ ∀ item ∈ items, item.depth ≤ n := by
  rw [depth, Nat.add_le_add_iff_right, depthOfItems_le]

theorem depth_object_le {fields : Fields} :
    (Value.object fields).depth ≤ n + 1 ↔ ∀ field ∈ fields, field.2.depth ≤ n := by
  rw [depth, Nat.add_le_add_iff_right, depthOfFields_le]

theorem depth_lt_of_item {item : Value} {items : List Value} (h : item ∈ items) :
    item.depth < (Value.array items).depth := by
  rw [depth]
  exact Nat.lt_succ_of_le (depthOfItems_le.mp (Nat.le_refl _) item h)

theorem depth_lt_of_get? {fields : Fields} {name : String} {value : Value}
    (h : fields.get? name = some value) : value.depth < (Value.object fields).depth := by
  rw [depth]
  exact Nat.lt_succ_of_le (depthOfFields_le.mp (Nat.le_refl _) _ (Fields.mem_of_get? h))

end Value

end FlowDesugar.Json
