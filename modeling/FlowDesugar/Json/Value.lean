import FlowDesugar.Number.Basic

/-!
# JSON values

Objects keep their fields in order of first appearance. `Fields.ofEntries` gives the object that a
text with the given entries denotes: a repeated key replaces the value and keeps the first place.
-/

namespace FlowDesugar.Json

/-- A JSON value. -/
inductive Value where
  | null
  | bool (value : Bool)
  | number (value : Number)
  | string (value : String)
  | array (items : List Value)
  | object (fields : List (String × Value))

/-- The fields of an object, in order. -/
abbrev Fields := List (String × Value)

namespace Fields

/-- The value of a field. -/
def get? (fields : Fields) (name : String) : Option Value :=
  match fields with
  | [] => none
  | (key, value) :: rest => if key = name then some value else get? rest name

/-- Sets a field: in its place if there is one of that name, else at the end. -/
def insert (fields : Fields) (name : String) (value : Value) : Fields :=
  match fields with
  | [] => [(name, value)]
  | (key, old) :: rest =>
    if key = name then (key, value) :: rest else (key, old) :: insert rest name value

/-- The object that a sequence of entries denotes. -/
def ofEntries (entries : List (String × Value)) : Fields :=
  entries.foldl (fun fields entry => insert fields entry.1 entry.2) []

end Fields

namespace Value

/-- The text of a string. -/
def string? : Value → Option String
  | .string value => some value
  | _ => none

/-- The natural number of 64 bits that a number is kept as. -/
def natural? : Value → Option UInt64
  | .number value => value.natural?
  | _ => none

end Value

end FlowDesugar.Json
