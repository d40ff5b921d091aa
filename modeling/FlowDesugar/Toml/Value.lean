import FlowDesugar.Toml.Date

/-!
# TOML values

Tables keep their entries in the order of the text. Numbers with a fraction and dates are kept as
they are written.

A value as it is written and the value that it stands for differ in one way: a table that begins
with the key `dateKey` stands for the date that this key has as a string, whatever else the table
holds. `Value.resolve?` gives the value that a written one stands for.
-/

namespace FlowDesugar.Toml

/-- A TOML value. -/
inductive Value where
  | string (text : String)
  | integer (value : Int)
  | float (text : String)
  | boolean (value : Bool)
  | date (text : String)
  | array (items : List Value)
  /-- `extensible` says whether further dotted keys may add to the table. -/
  | table (extensible : Bool) (entries : List (String × Value))

/-- The entries of a table, in order. -/
abbrev Entries := List (String × Value)

/-- The value of a key. -/
def Entries.get? (entries : Entries) (key : String) : Option Value :=
  match entries with
  | [] => none
  | (name, value) :: rest => if name = key then some value else Entries.get? rest key

/-- The value of a key in a table. Other values have no keys. -/
def Value.get? : Value → String → Option Value
  | .table _ entries, key => Entries.get? entries key
  | _, _ => none

/-! ### What a value stands for -/

/-- The key that makes a table stand for a date. -/
def dateKey : String := "$__toml_private_datetime"

/-- Whether entries begin with the key of a date. -/
def Entries.standForDate : Entries → Bool
  | (key, _) :: _ => key = dateKey
  | [] => false

/-- The date that a text is. -/
def date? (text : String) : Option Value :=
  if isDate text then some (.date text) else none

mutual

/-- The value that a written value stands for, if dates are dates and no table has two entries of
one key. A table that stands for a date is not looked at further. -/
def Value.resolve? : Value → Option Value
  | .date text => date? text
  | .array items => (resolveItems? items).map .array
  | .table extensible entries =>
    match entries with
    | [] => some (.table extensible [])
    | (key, value) :: rest =>
      if key = dateKey then
        match value with
        | .string text => date? text
        | _ => none
      else (resolveEntries? ((key, value) :: rest)).map (.table extensible)
  | value => some value

/-- The values that the items of an array stand for. -/
def resolveItems? : List Value → Option (List Value)
  | [] => some []
  | value :: values => do
    let value ← value.resolve?
    let values ← resolveItems? values
    return value :: values

/-- The entries of a table with the values that they stand for. No two may have one key. -/
def resolveEntries? : List (String × Value) → Option (List (String × Value))
  | [] => some []
  | (key, value) :: entries => do
    let value ← value.resolve?
    let entries ← resolveEntries? entries
    if (entries.map Prod.fst).contains key then none else some ((key, value) :: entries)

end

end FlowDesugar.Toml
