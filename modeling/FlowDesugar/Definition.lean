import FlowDesugar.Declaration
import FlowDesugar.Interchange.Import
import FlowDesugar.Keywords
import FlowDesugar.Script

/-!
# Definitions

A definition arrives as a call of a keyword whose one argument is the call `name(args, { body })`.
Its canonical form lifts the inner arguments up and names the definition by a string:

    keyword(options?, "name", args, hasScript, { body })

A leading map of options stays first. `hasScript` says whether the body has a script; a definition
without one is reported, and the pass goes on. Each definition leaves a record.
-/

namespace FlowDesugar

/-- A problem at a position of the source text; line zero if the position is not known. -/
structure Report where
  message : String
  line : UInt64
  column : UInt64
deriving DecidableEq, Repr

/-- What became of a definition. -/
structure DefinitionSummary where
  keyword : String
  name : String
  /-- The location of the definition. -/
  loc : Handle
  /-- Whether it has a script. -/
  hasScript : Bool
deriving DecidableEq, Repr

/-- A definition that does not have the shape of one. It ends the pass. -/
structure MalformedDefinition where
  loc : Handle
  keyword : String
deriving DecidableEq, Repr

namespace MalformedDefinition

/-- The wording of the problem. -/
def message (error : MalformedDefinition) : String :=
  "malformed " ++ error.keyword ++ " definition: expected a single call argument naming the "
    ++ error.keyword

/-- The diagnostic of the problem. -/
def diagnostic (map : SourceMap) (error : MalformedDefinition) : Diagnostic :=
  (map.diagnostic error.loc error.message).withNote
    "the syntax tree does not have the shape the desugaring pass expects"

end MalformedDefinition

/-- The state of a pass: the locations and scopes of the tree, and what has been reported and
recorded, in order. -/
structure Progress where
  registry : Registry := {}
  reports : List Report := []
  records : List DefinitionSummary := []
deriving DecidableEq, Repr

/-- A pass over a tree. What was done before a malformed definition stays done. -/
abbrev Pass := ExceptT MalformedDefinition (StateM Progress)

namespace Pass

/-- Notes a problem at its position. -/
def report (error : ScriptError) : Pass Unit :=
  modify fun progress =>
    let position := (progress.registry.sourceMap.position? error.loc).getD ⟨0, 0⟩
    let report : Report := ⟨error.message, position.line, position.column⟩
    { progress with reports := progress.reports ++ [report] }

/-- Records a definition. -/
def record (definition : DefinitionSummary) : Pass Unit :=
  modify fun progress => { progress with records := progress.records ++ [definition] }

/-- Mints a handle at the position of another. -/
def annotated (loc : Handle) (note : String) : Pass Handle :=
  modifyGet fun progress =>
    let (handle, sourceMap) := progress.registry.sourceMap.annotated loc note
    (handle, { progress with registry := { progress.registry with sourceMap } })

/-- Makes the script the last statement of a block, in a scope of its own. -/
def deferScript (definition : Handle) (block : Block) (script : List Stmt) : Pass Scripted :=
  modifyGet fun progress =>
    let scopes := progress.registry.scopes
    let (scripted, scopes) := FlowDesugar.deferScript scopes definition block script
    (scripted, { progress with registry := { progress.registry with scopes } })

end Pass

namespace Definition

/-- Puts the name of a definition first, or after a leading map of options. -/
def withName (args : List Expr) (name : Expr) : List Expr :=
  args.take (optionCount args) ++ name :: args.drop (optionCount args)

/-- Puts the script flag before the last argument. -/
def withScriptFlag (args : List Expr) (flag : Expr) : List Expr :=
  args.take (args.length - 1) ++ flag :: args.drop (args.length - 1)

/-- The inner call of a definition: its location, name and arguments. -/
def inner? : List Expr → Option (Handle × String × List Expr)
  | [.call loc none name args] => some (loc, name, args)
  | _ => none

/-- Puts the declarations of a block into canonical form. -/
def canonicalizeRetained (retained : List (Section × Stmt)) : List Stmt :=
  retained.map fun (inside, stmt) => stmt.canonicalize inside

/-- Puts the declarations of a body into canonical form and defers its script. -/
def canonicalizeBody (definition : Handle) (block : Block) : Pass Scripted :=
  let parts := Section.split block.stmts
  let stmts := canonicalizeRetained parts.retained
  Pass.deferScript definition { block with stmts } parts.script

/-- Puts the body of a definition, which is its last argument if that is a thunk, into canonical
form. Gives the arguments with the script flag. -/
def canonicalizeArgs (loc : Handle) (name : String) (args : List Expr) :
    Pass (Bool × List Expr) := do
  match args.getLast? with
  | some (.thunk bodyLoc block) =>
    let scripted ← canonicalizeBody loc block
    if let some problem := scripted.problem then Pass.report problem
    let flag := Expr.ofBool (← Pass.annotated loc "script mode") scripted.hasScript
    let args := args.dropLast ++ [.thunk bodyLoc scripted.block]
    return (scripted.hasScript, withScriptFlag args flag)
  | _ =>
    Pass.report (.missingBody loc name)
    let flag := Expr.ofBool (← Pass.annotated loc "script mode") false
    return (false, args ++ [flag])

/-- The canonical form of the definition `keyword(args)` at `loc`. -/
def reshape (loc : Handle) (keyword : String) (args : List Expr) : Pass Expr := do
  match inner? args with
  | none => throw ⟨loc, keyword⟩
  | some (nameLoc, name, args) =>
    let (hasScript, args) ← canonicalizeArgs loc name (withName args (.ofText nameLoc name))
    Pass.record ⟨keyword, name, loc, hasScript⟩
    return .call loc none keyword args

end Definition

end FlowDesugar
