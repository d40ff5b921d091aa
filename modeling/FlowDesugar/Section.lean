import FlowDesugar.Tree.Basic

/-!
# Sections of a definition

A label puts its statement, and the unlabelled statements after it, into a section. `Section.assign`
gives every statement its section; `Section.split` takes the statements of the script out of a
block.
-/

namespace FlowDesugar

/-- The part of a definition that a statement belongs to. -/
inductive Section where
  /-- Before any label, or under a label without a meaning of its own. -/
  | plain
  | input
  | output
  | share
  /-- The script. -/
  | exec
deriving DecidableEq, Repr

namespace Section

/-- The section that a label starts. -/
def ofLabel (label : String) : Section :=
  if label = "input" then input
  else if label = "output" then output
  else if label = "share" then share
  else if label = "exec" ∨ label = "script" then exec
  else plain

/-- Whether the statements of a section are declarations. -/
def declares : Section → Bool
  | input | output | share => true
  | plain | exec => false

/-- The section of a statement that follows statements of the section `current`. -/
def advance (current : Section) (stmt : Stmt) : Section :=
  match stmt.label with
  | some label => ofLabel label
  | none => current

/-- The sections of statements that follow statements of the section `current`. -/
def assignFrom (current : Section) : List Stmt → List Section
  | [] => []
  | stmt :: stmts => current.advance stmt :: assignFrom (current.advance stmt) stmts

/-- The section of each statement of a block. -/
def assign (stmts : List Stmt) : List Section :=
  assignFrom plain stmts

/-- The statements of a block, with the script apart. -/
structure Split where
  /-- The statements outside the script, with their sections, in order. -/
  retained : List (Section × Stmt)
  /-- The statements of the script, in order. -/
  script : List Stmt

/-- Takes the statements of the script out of those that follow statements of `current`. -/
def splitFrom (current : Section) : List Stmt → Split
  | [] => { retained := [], script := [] }
  | stmt :: stmts =>
    let here := current.advance stmt
    let rest := splitFrom here stmts
    if here = .exec then { rest with script := stmt :: rest.script }
    else { rest with retained := (here, stmt) :: rest.retained }

/-- Takes the statements of the script out of a block. -/
def split (stmts : List Stmt) : Split :=
  splitFrom plain stmts

end Section

end FlowDesugar
