import FlowDesugar.Json.Value

/-!
# Places inside a JSON value

A path leads from the root of a value to a place inside it, by field names and item numbers. Its
text is `$`, then `.name` or `[i]` for each step.
-/

namespace FlowDesugar.Json

/-- A step into an object or an array. -/
inductive Step where
  | field (name : String)
  | item (index : Nat)
deriving DecidableEq, Repr

/-- The steps that lead from the root to a place. -/
structure Path where
  steps : List Step := []
deriving DecidableEq, Repr

/-- The text of a step. -/
def Step.text : Step → String
  | .field name => "." ++ name
  | .item index => "[" ++ Number.naturalText index ++ "]"

/-- The value that a step leads to. -/
def Value.step? : Value → Step → Option Value
  | .object fields, .field name => Fields.get? fields name
  | .array items, .item index => items[index]?
  | _, _ => none

namespace Path

/-- The root. -/
def root : Path := {}

/-- A field of the object at a place. -/
def field (path : Path) (name : String) : Path :=
  { steps := path.steps ++ [.field name] }

/-- An item of the array at a place. -/
def item (path : Path) (index : Nat) : Path :=
  { steps := path.steps ++ [.item index] }

/-- The text of a path. -/
def text (path : Path) : String :=
  path.steps.foldl (fun text step => text ++ step.text) "$"

/-- The value at a place. -/
def get? (path : Path) (value : Value) : Option Value :=
  path.steps.foldl (fun found step => found.bind (·.step? step)) (some value)

end Path

end FlowDesugar.Json
