import FlowDesugar.Toml.Number

/-!
# The lines of a TOML document

A document is a sequence of parts: a header, which names a table or one more item of an array of
tables, and the entries under it. Entries before the first header belong to the document itself.
What the headers make of the entries is the matter of `Toml.Document`.

A dotted key `a.b = v` makes a table `a` with an entry `b`. Further dotted keys may add to such a
table, and to no other.
-/

namespace FlowDesugar.Toml

/-- A header with the entries under it. -/
structure Part where
  header : List String
  /-- Whether the header, in double brackets, adds an item to an array of tables. -/
  isItem : Bool
  entries : Entries

/-- Adds the entry of a dotted key. An entry whose key is there already is added all the same. -/
def addDotted (value : Value) : List String → Entries → Option Entries
  | [], _ => none
  | [key], entries => some (entries ++ [(key, value)])
  | key :: keys, entries =>
    match entries.findIdx? (fun entry => entry.1 = key) with
    | none => do
      let inner ← addDotted value keys []
      return entries ++ [(key, .table true inner)]
    | some index =>
      match entries[index]? with
      | some (_, .table true inner) => do
        let inner ← addDotted value keys inner
        return entries.set index (key, .table true inner)
      | _ => none

/-- Reads a key. -/
def key : Scan String := do
  if ← Scan.accept '"' then quoted '"'
  else if ← Scan.accept '\'' then quoted '\''
  else return String.ofList (← Scan.word)
where
  /-- Reads a key in quotes, which is one line. -/
  quoted (quote : Char) : Scan String := do
    let (text, multiline) ← Scan.string quote
    if multiline then failure else return text

/-- Reads the keys after the first one of a dotted key. -/
def moreKeys : Nat → Scan (List String)
  | 0 => failure
  | bound + 1 => do
    Scan.blanks
    if ← Scan.accept '.' then
      Scan.blanks
      let first ← key
      let rest ← moreKeys bound
      return first :: rest
    else return []

/-- Reads a dotted key, with the blanks around it. -/
def dottedKey : Scan (List String) := do
  Scan.blanks
  let first ← key
  let rest ← moreKeys (← get).length.succ
  return first :: rest

mutual

/-- Reads a value. -/
def value : Nat → Scan Value
  | 0 => failure
  | bound + 1 => do
    match ← Scan.peek with
    | none => failure
    | some c =>
      if c = '"' ∨ c = '\'' then
        discard (Scan.accept c)
        return .string (← Scan.string c).1
      else if c = '[' then
        Scan.expect '['
        return .array (← items bound)
      else if c = '{' then
        Scan.expect '{'
        Scan.blanks
        if ← Scan.accept '}' then return .table false []
        else return .table false (← inlineEntries bound [])
      else if c = '+' then
        Scan.expect '+'
        number (← Scan.word)
      else
        let cs ← Scan.word
        if cs = "true".toList then return .boolean true
        else if cs = "false".toList then return .boolean false
        else if c.isDigit ∨ c = '-' ∨ cs = "inf".toList ∨ cs = "nan".toList then numberOrDate cs
        else failure

/-- Reads the items of an array and its closing bracket. -/
def items : Nat → Scan (List Value)
  | 0 => failure
  | bound + 1 => do
    Scan.between
    if ← Scan.accept ']' then return []
    else
      let first ← value bound
      Scan.between
      if ← Scan.accept ',' then
        let rest ← items bound
        return first :: rest
      else
        Scan.expect ']'
        return [first]

/-- Reads entries of a table in braces, after those in `entries`, and its closing brace. -/
def inlineEntries : Nat → Entries → Scan Entries
  | 0, _ => failure
  | bound + 1, entries => do
    let keys ← dottedKey
    Scan.expect '='
    Scan.blanks
    let v ← value bound
    let entries ← addDotted v keys entries
    Scan.blanks
    if ← Scan.accept '}' then return entries
    else
      Scan.expect ','
      inlineEntries bound entries

end

/-- Reads a header after its first bracket: whether it is in double brackets, and its keys. -/
def header : Scan Part := do
  let isItem ← Scan.accept '['
  let keys ← dottedKey
  Scan.expect ']'
  if isItem then Scan.expect ']'
  Scan.restOfLine
  return ⟨keys, isItem, []⟩

/-- Reads an entry on a line of its own, and adds it to a part. -/
def entry (part : Part) : Scan Part := do
  let keys ← dottedKey
  Scan.expect '='
  Scan.blanks
  let v ← value (2 * (← get).length + 2)
  let entries ← addDotted v keys part.entries
  Scan.restOfLine
  return { part with entries }

/-- Reads the rest of a document, the part being read coming first. `bound` exceeds the number of
lines. -/
def partsFrom (part : Part) : Nat → Scan (List Part)
  | 0 => failure
  | bound + 1 => do
    Scan.between
    match ← Scan.peek with
    | none => return [part]
    | some _ =>
      if ← Scan.accept '[' then
        let next ← header
        let rest ← partsFrom next bound
        return part :: rest
      else
        let part ← entry part
        partsFrom part bound

/-- Reads the parts of a document. -/
def parts : Scan (List Part) := do
  partsFrom ⟨[], false, []⟩ ((← get).length + 1)

end FlowDesugar.Toml
