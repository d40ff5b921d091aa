import FlowDesugar.Tree.Basic

/-!
# The script of a definition

The script of a definition is wrapped in a thunk, which becomes the last statement of its block, so
that it runs when the executor decides. The script is what stands under its label; failing that, the
last statement if it is a string. A block that ends in a thunk already has a script.
-/

namespace FlowDesugar

/-- Why a definition has no script. -/
inductive ScriptError where
  /-- The last statement, at `loc`, can be no script. -/
  | noScript (loc : Handle)
  /-- The block of the definition at `loc` has no statements. -/
  | emptyDefinition (loc : Handle)
  /-- The definition of `name` at `loc` has no block. -/
  | missingBody (loc : Handle) (name : String)
deriving DecidableEq, Repr

namespace ScriptError

/-- The location of a problem. -/
def loc : ScriptError → Handle
  | noScript loc => loc
  | emptyDefinition loc => loc
  | missingBody loc _ => loc

/-- The wording of a problem. -/
def message : ScriptError → String
  | noScript _ | emptyDefinition _ =>
    "process must terminate with a quoted script expression or explicit exec/script section"
  | missingBody _ name => "process " ++ name ++ " has no body"

/-- The diagnostic of a problem. -/
def diagnostic (map : SourceMap) (error : ScriptError) : Diagnostic :=
  map.diagnostic error.loc error.message

end ScriptError

/-- A block whose script has been looked for. -/
structure Scripted where
  /-- The block, with its script last if it has one. -/
  block : Block
  /-- Why it has none. -/
  problem : Option ScriptError

/-- Whether a script was found. -/
def Scripted.hasScript (scripted : Scripted) : Bool :=
  scripted.problem.isNone

/-- A statement that defers others to a scope of their own. -/
def Stmt.deferred (loc : Handle) (scope : ScopeId) (stmts : List Stmt) : Stmt :=
  .plain loc (.thunk loc ⟨scope, stmts⟩)

/-- Makes the script the last statement of a block. `script` holds the statements of the script's
section; if there are none, the last statement of the block is taken. `definition` is the location
that an empty block is reported at. -/
def deferScript (scopes : Scopes) (definition : Handle) (block : Block) (script : List Stmt) :
    Scripted × Scopes :=
  match script with
  | first :: _ =>
    let (scope, scopes) := scopes.child block.scope
    let stmts := block.stmts ++ [.deferred first.loc scope script]
    (⟨{ block with stmts }, none⟩, scopes)
  | [] =>
    match block.stmts.getLast? with
    | none => (⟨block, some (.emptyDefinition definition)⟩, scopes)
    | some last =>
      if last.expr.isThunk then (⟨block, none⟩, scopes)
      else if last.expr.isTextual then
        let (scope, scopes) := scopes.child block.scope
        let stmts := block.stmts.dropLast ++ [.deferred last.loc scope [.plain last.loc last.expr]]
        (⟨{ block with stmts }, none⟩, scopes)
      else (⟨block, some (.noScript last.loc)⟩, scopes)

end FlowDesugar
