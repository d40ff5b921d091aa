import FlowDesugar.Scope
import FlowDesugar.SourceMap
import FlowDesugar.Tree.Operator

/-!
# Syntax trees

Statements and expressions of a workflow script. Every node carries the handle of its location, and
every block the scope in which its statements stand. A closure without parameters is a *thunk*: a
block that is run later, at the executor's discretion.

Map entries keep their order and have distinct keys.
-/

namespace FlowDesugar

/-- A constant. -/
inductive Literal where
  | text (value : String)
  | number (value : Number)
  | bool (value : Bool)
  | null
deriving DecidableEq, Repr

mutual

/-- An expression. -/
inductive Expr where
  /-- A constant. -/
  | literal (loc : Handle) (value : Literal)
  /-- A string with interpolated expressions. -/
  | gstring (loc : Handle) (chunks : List Chunk)
  /-- A bare identifier. -/
  | var (loc : Handle) (name : String)
  /-- A property of a target. -/
  | property (loc : Handle) (target : Expr) (name : String)
  /-- A method call, on a receiver or on none. -/
  | call (loc : Handle) (receiver : Option Expr) (method : String) (args : List Expr)
  /-- A map, which is also the shape of named arguments. -/
  | map (loc : Handle) (entries : List Entry)
  /-- A list. -/
  | list (loc : Handle) (items : List Expr)
  /-- A binary operation. -/
  | binary (loc : Handle) (op : Operator) (left right : Expr)
  /-- A closure with parameters. -/
  | closure (loc : Handle) (params : List String) (body : Block)
  /-- A block that is run later. -/
  | thunk (loc : Handle) (body : Block)

/-- A piece of a string. -/
inductive Chunk where
  | text (value : String)
  | interpolation (expr : Expr)

/-- An entry of a map. -/
structure Entry where
  key : String
  value : Expr

/-- A statement: an expression that is evaluated, or returned when `returns` holds, with an optional
label such as `input` or `exec`. -/
structure Stmt where
  returns : Bool
  loc : Handle
  label : Option String
  expr : Expr

/-- Statements in a scope. -/
structure Block where
  scope : ScopeId
  stmts : List Stmt

end

namespace Expr

/-- The location of an expression. -/
def loc : Expr → Handle
  | literal loc _ => loc
  | gstring loc _ => loc
  | var loc _ => loc
  | property loc _ _ => loc
  | call loc _ _ _ => loc
  | map loc _ => loc
  | list loc _ => loc
  | binary loc _ _ _ => loc
  | closure loc _ _ => loc
  | thunk loc _ => loc

/-- Whether an expression is a map. -/
def isMap : Expr → Bool
  | map _ _ => true
  | _ => false

/-- Whether an expression is a thunk. -/
def isThunk : Expr → Bool
  | thunk _ _ => true
  | _ => false

/-- Whether an expression is a string, quoted or interpolated, and so can stand as a script. -/
def isTextual : Expr → Bool
  | literal _ (.text _) => true
  | gstring _ _ => true
  | _ => false

/-- The name of a bare identifier. -/
def identifier? : Expr → Option String
  | var _ name => some name
  | _ => none

/-- The body of a closure or a thunk. -/
def body? : Expr → Option Block
  | closure _ _ body => some body
  | thunk _ body => some body
  | _ => none

/-- A string constant. -/
def ofText (loc : Handle) (value : String) : Expr :=
  literal loc (.text value)

/-- A truth value. -/
def ofBool (loc : Handle) (value : Bool) : Expr :=
  literal loc (.bool value)

end Expr

namespace Stmt

/-- An unlabelled statement that evaluates an expression. -/
def plain (loc : Handle) (expr : Expr) : Stmt :=
  { returns := false, loc, label := none, expr }

/-- The same statement with another expression. -/
def withExpr (stmt : Stmt) (expr : Expr) : Stmt :=
  { stmt with expr }

end Stmt

end FlowDesugar
