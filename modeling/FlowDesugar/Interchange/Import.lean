import FlowDesugar.Interchange.Error
import FlowDesugar.Interchange.Kind
import FlowDesugar.Tree.Basic

/-!
# Reading a tree document

A document is an object with the statements of a script and, optionally, the name of the source
text. Reading walks it once from the outside in. On the way every node with a line gets a handle,
and every closure opens a scope inside the scope around it; both are numbered in the order in which
the reader meets them. The reader stops at the first fault.

The recursion follows the document: each function that reads a field searches the fields of an
object for it and reads the value it finds there.
-/

namespace FlowDesugar

/-- The locations and scopes noted so far. -/
structure Registry where
  sourceMap : SourceMap := .empty
  scopes : Scopes := .fresh
deriving DecidableEq, Repr

/-- A tree with the name of its source text. -/
structure Document where
  source : Option String
  body : Block

/-- Reading with a registry, up to the first fault. -/
abbrev Import := StateT Registry (Except ImportError)

namespace Interchange

open Json (Value Fields Path)

/-- Notes the position of a node. A node without a line has none; a line without a column has column
zero. Only natural numbers count. -/
def noteLocation (fields : Fields) : Import Handle := fun registry =>
  match (Fields.get? fields "line").bind Value.natural? with
  | none => .ok (.unknown, registry)
  | some line =>
    let column := ((Fields.get? fields "column").bind Value.natural?).getD 0
    let (handle, sourceMap) := registry.sourceMap.add { line, column }
    .ok (handle, { registry with sourceMap })

/-- Opens a scope inside another. -/
def openScope (parent : ScopeId) : Import ScopeId := fun registry =>
  let (scope, scopes) := registry.scopes.child parent
  .ok (scope, { registry with scopes })

/-- The value of a field that has to be there. -/
def field (path : Path) (name : String) (fields : Fields) : Import Value :=
  match Fields.get? fields name with
  | some value => return value
  | none => throw (.missingField path name)

/-- The text of a field that has to be a string. -/
def stringField (path : Path) (name : String) (fields : Fields) : Import String := do
  match ← field path name fields with
  | .string value => return value
  | _ => throw (.unexpectedShape (path.field name) .string)

/-- The number of a field that has to be one. -/
def numberField (path : Path) (name : String) (fields : Fields) : Import Number := do
  match ← field path name fields with
  | .number value => return value
  | _ => throw (.unexpectedShape (path.field name) .number)

/-- The truth value of a field that has to be one. -/
def boolField (path : Path) (name : String) (fields : Fields) : Import Bool := do
  match ← field path name fields with
  | .bool value => return value
  | _ => throw (.unexpectedShape (path.field name) .bool)

/-- The text of a field that may be missing or null. -/
def optionalString (path : Path) (name : String) (fields : Fields) : Import (Option String) :=
  match Fields.get? fields name with
  | none => return none
  | some .null => return none
  | some (.string value) => return some value
  | some _ => throw (.unexpectedShape (path.field name) .string)

/-- The operator of a binary operation. -/
def operatorField (path : Path) (fields : Fields) : Import Operator := do
  let symbol ← stringField path "op" fields
  match Operator.ofSymbol? symbol with
  | some op => return op
  | none => throw (.unknownOperator (path.field "op") symbol)

/-- The texts of items that all have to be strings. -/
def strings? : List Value → Option (List String)
  | [] => some []
  | .string value :: values => (strings? values).map (value :: ·)
  | _ => none

/-- The parameters of a closure, which may be missing or null. -/
def paramsField (path : Path) (fields : Fields) : Import (List String) :=
  match Fields.get? fields "params" with
  | none => return []
  | some .null => return []
  | some (.array items) =>
    match strings? items with
    | some params => return params
    | none => throw (.unexpectedShape (path.field "params") .parameterNames)
  | some _ => throw (.unexpectedShape (path.field "params") .array)

mutual

/-- Reads an expression. -/
def readExpr (path : Path) (scope : ScopeId) : Value → Import Expr
  | .object fields => do
    let loc ← noteLocation fields
    let name ← stringField path "kind" fields
    match Kind.ofName? name with
    | none => throw (.unknownExpression path name)
    | some .str => return .literal loc (.text (← stringField path "value" fields))
    | some .num => return .literal loc (.number (← numberField path "value" fields))
    | some .bool => return .literal loc (.bool (← boolField path "value" fields))
    | some .null => return .literal loc .null
    | some .gstring => return .gstring loc (← readParts path scope fields)
    | some .var => return .var loc (← stringField path "name" fields)
    | some .property => do
      let target ← readField path scope "target" fields
      return .property loc target (← stringField path "name" fields)
    | some .call => do
      let receiver ← readReceiver path scope fields
      let method ← stringField path "method" fields
      let args ← readArgs path scope fields
      return .call loc receiver method args
    | some .map => return .map loc (← readEntries path scope fields)
    | some .list => return .list loc (← readItems path scope fields)
    | some .binary => do
      let op ← operatorField path fields
      let left ← readField path scope "left" fields
      let right ← readField path scope "right" fields
      return .binary loc op left right
    | some .closure => do
      let params ← paramsField path fields
      let inner ← openScope scope
      let stmts ← readBody path inner fields
      if params.isEmpty then return .thunk loc ⟨inner, stmts⟩
      else return .closure loc params ⟨inner, stmts⟩
  | _ => throw (.unexpectedShape path .object)

/-- Reads the expression of a field. -/
def readField (path : Path) (scope : ScopeId) (name : String) :
    List (String × Value) → Import Expr
  | [] => throw (.missingField path name)
  | (key, value) :: fields =>
    if key = name then readExpr (path.field name) scope value
    else readField path scope name fields

/-- Reads the receiver of a call, which may be missing or null. -/
def readReceiver (path : Path) (scope : ScopeId) :
    List (String × Value) → Import (Option Expr)
  | [] => return none
  | (key, value) :: fields =>
    if key = "receiver" then
      match value with
      | .null => return none
      | value => return some (← readExpr (path.field "receiver") scope value)
    else readReceiver path scope fields

/-- Reads the arguments of a call, which may be missing. -/
def readArgs (path : Path) (scope : ScopeId) : List (String × Value) → Import (List Expr)
  | [] => return []
  | (key, value) :: fields =>
    if key = "args" then
      match value with
      | .array values => readExprs (path.field "args") scope 0 values
      | _ => throw (.unexpectedShape (path.field "args") .array)
    else readArgs path scope fields

/-- Reads the items of a list. -/
def readItems (path : Path) (scope : ScopeId) : List (String × Value) → Import (List Expr)
  | [] => throw (.missingField path "items")
  | (key, value) :: fields =>
    if key = "items" then
      match value with
      | .array values => readExprs (path.field "items") scope 0 values
      | _ => throw (.unexpectedShape (path.field "items") .array)
    else readItems path scope fields

/-- Reads the parts of an interpolated string. -/
def readParts (path : Path) (scope : ScopeId) : List (String × Value) → Import (List Chunk)
  | [] => throw (.missingField path "parts")
  | (key, value) :: fields =>
    if key = "parts" then
      match value with
      | .array values => readChunks (path.field "parts") scope 0 values
      | _ => throw (.unexpectedShape (path.field "parts") .array)
    else readParts path scope fields

/-- Reads the entries of a map. -/
def readEntries (path : Path) (scope : ScopeId) : List (String × Value) → Import (List Entry)
  | [] => throw (.missingField path "entries")
  | (key, value) :: fields =>
    if key = "entries" then
      match value with
      | .object entries => readValues (path.field "entries") scope entries
      | _ => throw (.unexpectedShape (path.field "entries") .object)
    else readEntries path scope fields

/-- Reads the statements of a closure or of a document. -/
def readBody (path : Path) (scope : ScopeId) : List (String × Value) → Import (List Stmt)
  | [] => throw (.missingField path "statements")
  | (key, value) :: fields =>
    if key = "statements" then
      match value with
      | .array values => readStmts (path.field "statements") scope 0 values
      | _ => throw (.unexpectedShape (path.field "statements") .array)
    else readBody path scope fields

/-- Reads expressions, the first of which is item `index` of the array at `path`. -/
def readExprs (path : Path) (scope : ScopeId) (index : Nat) : List Value → Import (List Expr)
  | [] => return []
  | value :: values => do
    let expr ← readExpr (path.item index) scope value
    let exprs ← readExprs path scope (index + 1) values
    return expr :: exprs

/-- Reads the parts of a string: texts, and expressions to interpolate. -/
def readChunks (path : Path) (scope : ScopeId) (index : Nat) : List Value → Import (List Chunk)
  | [] => return []
  | .string text :: values => do
    let chunks ← readChunks path scope (index + 1) values
    return .text text :: chunks
  | value :: values => do
    let expr ← readExpr (path.item index) scope value
    let chunks ← readChunks path scope (index + 1) values
    return .interpolation expr :: chunks

/-- Reads the values of a map. -/
def readValues (path : Path) (scope : ScopeId) : List (String × Value) → Import (List Entry)
  | [] => return []
  | (key, value) :: fields => do
    let expr ← readExpr (path.field key) scope value
    let entries ← readValues path scope fields
    return ⟨key, expr⟩ :: entries

/-- Reads statements, the first of which is item `index` of the array at `path`. The kind of a
statement is looked at after its expression has been read. -/
def readStmts (path : Path) (scope : ScopeId) (index : Nat) : List Value → Import (List Stmt)
  | [] => return []
  | .object fields :: values => do
    let loc ← noteLocation fields
    let label ← optionalString (path.item index) "label" fields
    let kind ← stringField (path.item index) "kind" fields
    let expr ← readField (path.item index) scope "expr" fields
    match stmtReturns? kind with
    | none => throw (.unknownStatement (path.item index) kind)
    | some returns => do
      let stmts ← readStmts path scope (index + 1) values
      return ⟨returns, loc, label, expr⟩ :: stmts
  | _ :: _ => throw (.unexpectedShape (path.item index) .object)

end

/-- Reads a document. -/
def documentOf : Value → Import Document
  | .object fields => do
    let source ← optionalString .root "source" fields
    let stmts ← readBody .root Scopes.root fields
    return { source, body := ⟨Scopes.root, stmts⟩ }
  | _ => throw (.unexpectedShape .root .object)

/-- Reads the text of a document in a named format. The one format is `json`. -/
def parseDocument (format : String) (text : String) : Import Document :=
  if format = "json" then
    match Json.read text with
    | .ok value => documentOf value
    | .error error => throw (.invalidJson error)
  else throw (.unknownFormat format)

end Interchange

end FlowDesugar
