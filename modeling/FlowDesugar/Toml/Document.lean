import FlowDesugar.Toml.Reader

/-!
# The table of a TOML document

The parts of a document are gathered into one table. A header `[a.b]` names the table `b` inside the
table `a`, and each `[[a]]` adds a table to the array `a`; the headers that follow it and go on from
`a` belong to that table. The headers of a table need not follow each other, but no table is named
twice, a table that is there is not made an array, and no table has two entries of one key.

A table that begins with the key of a date has this entry only: gathering it stops there, and the
headers that go on from it are left over.
-/

namespace FlowDesugar.Toml

/-- The gathering of parts. Its state holds the indices of the parts used so far. -/
abbrev Gather := StateT (List Nat) Option

namespace Gather

/-- Marks a part as used, which it must not be yet. -/
def use (index : Nat) : Gather Unit := do
  let used ← get
  if used.contains index then failure else set (index :: used)

/-- The first unused part, of those from `start` up to `stop`, whose header begins with `stem`. -/
def next? (parts : Array Part) (stem : List String) (start stop : Nat) : Gather (Option Nat) := do
  let used ← get
  return (List.range stop).find? fun index =>
    start ≤ index && !used.contains index
      && (parts[index]?.map fun part => stem.isPrefixOf part.header) = some true

/-- The next part up to `stop` that adds an item under the same header. -/
def nextItem? (parts : Array Part) (header : List String) (start stop : Nat) : Option Nat :=
  (List.range stop).find? fun index =>
    start ≤ index && (parts[index]?.map fun part => part.isItem && part.header = header) = some true

mutual

/-- Gathers the entries of the table whose name is the first `depth` keys of the header of `parent`,
from the parts up to `stop` that are not used; those before `start` have been looked at. `fresh`
says whether no entry of the table has been found yet. -/
def table (parts : Array Part) (bound depth parent start stop : Nat) (fresh : Bool) :
    Gather Entries :=
  match bound with
  | 0 => failure
  | bound + 1 => do
    let owner := (parts[parent]?.map Part.header).getD []
    match ← next? parts (owner.take depth) start stop with
    | none => return []
    | some index =>
      let part := parts[index]?.getD ⟨[], false, []⟩
      if parent ≠ index ∧ owner = part.header then failure
      let parent := if part.header.length < owner.length then index else parent
      match part.header[depth]? with
      | some key =>
        let inner ← if part.isItem ∧ depth + 1 = part.header.length then do
            pure (Value.array (← tables parts bound depth index stop))
          else do
            pure (Value.table false (← table parts bound (depth + 1) index 0 stop true))
        let rest ← table parts bound depth parent (index + 1) stop false
        return (key, inner) :: rest
      | none =>
        if part.isItem then failure
        use index
        if fresh ∧ Entries.standForDate part.entries then return part.entries.take 1
        let fresh := fresh && part.entries.isEmpty
        let rest ← table parts bound depth parent index stop fresh
        return part.entries ++ rest

/-- Gathers the items of an array of tables, from part `index` on. Each item has the parts up to the
next one. -/
def tables (parts : Array Part) (bound depth index stop : Nat) : Gather (List Value) :=
  match bound with
  | 0 => failure
  | bound + 1 => do
    let part := parts[index]?.getD ⟨[], false, []⟩
    let next := nextItem? parts part.header (index + 1) stop
    use index
    let entries ← if Entries.standForDate part.entries then pure (part.entries.take 1)
      else do
        let fresh := part.entries.isEmpty
        let inner ← table parts bound (depth + 1) index 0 (next.getD stop) fresh
        pure (part.entries ++ inner)
    let item := Value.table false entries
    match next with
    | none => return [item]
    | some next =>
      let rest ← tables parts bound depth next stop
      return item :: rest

end

/-- A bound on the steps of gathering: each key of a header is gone into once, and each part used
once. -/
def bound (parts : List Part) : Nat :=
  4 * parts.foldl (fun count part => count + part.header.length + 1) 0 + 4

end Gather

/-- The value of a document, if its parts make one: a table, or the date that the table stands
for. -/
def document? (parts : List Part) : Option Value := do
  let (entries, _) ←
    (Gather.table parts.toArray (Gather.bound parts) 0 0 0 parts.length true).run []
  (Value.table false entries).resolve?

/-- The value of a text, if it is TOML. A byte order mark at the start is skipped. -/
def read? (text : String) : Option Value := do
  let cs := match text.toList with
    | '\ufeff' :: cs => cs
    | cs => cs
  let (parts, _) ← parts.run (foldLineEnds cs)
  document? parts

end FlowDesugar.Toml
