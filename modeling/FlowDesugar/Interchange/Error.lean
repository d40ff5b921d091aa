import FlowDesugar.Diagnostic.Basic
import FlowDesugar.Json.Path
import FlowDesugar.Json.Reader

/-!
# What can be wrong with a tree document

Each fault of a document that is valid JSON names its place by a path.
-/

namespace FlowDesugar

/-- What a place of a document has to hold. -/
inductive Shape where
  | object
  | array
  | string
  | number
  | bool
  | parameterNames
deriving DecidableEq, Repr

/-- The wording of a shape. -/
def Shape.text : Shape → String
  | .object => "an object"
  | .array => "an array"
  | .string => "a string"
  | .number => "a number"
  | .bool => "a boolean"
  | .parameterNames => "parameter names"

/-- Why a document is refused. -/
inductive ImportError where
  /-- The text is not JSON. -/
  | invalidJson (error : Json.ReadError)
  /-- A value has another shape than its place asks for. -/
  | unexpectedShape (path : Json.Path) (shape : Shape)
  /-- An object lacks a field. -/
  | missingField (path : Json.Path) (field : String)
  /-- A statement names no kind of statement. -/
  | unknownStatement (path : Json.Path) (kind : String)
  /-- An expression names no kind of expression. -/
  | unknownExpression (path : Json.Path) (kind : String)
  /-- A binary operation names no operator. -/
  | unknownOperator (path : Json.Path) (symbol : String)
  /-- The document is in a format that is not supported. -/
  | unknownFormat (format : String)
deriving DecidableEq, Repr

namespace ImportError

/-- The place of a fault, if it is inside a value. -/
def path? : ImportError → Option Json.Path
  | invalidJson _ => none
  | unexpectedShape path _ => some path
  | missingField path _ => some path
  | unknownStatement path _ => some path
  | unknownExpression path _ => some path
  | unknownOperator path _ => some path
  | unknownFormat _ => none

/-- The wording of a fault. -/
def message : ImportError → String
  | invalidJson error => "invalid json: " ++ error.message
  | unexpectedShape path shape => "expected " ++ shape.text ++ " at " ++ path.text
  | missingField path field => "missing field '" ++ field ++ "' at " ++ path.text
  | unknownStatement path kind => "unknown statement kind '" ++ kind ++ "' at " ++ path.text
  | unknownExpression path kind => "unknown expression kind '" ++ kind ++ "' at " ++ path.text
  | unknownOperator path symbol => "unknown operator '" ++ symbol ++ "' at " ++ path.text
  | unknownFormat format => "unknown tree format " ++ format

/-- The diagnostic of a fault. -/
def diagnostic (error : ImportError) : Diagnostic :=
  let bare : Diagnostic := { message := error.message }
  match error with
  | invalidJson fault =>
    bare.withNote ("at line " ++ Number.naturalText fault.line ++ ", column "
      ++ Number.naturalText fault.column ++ " of the tree document")
  | unknownFormat _ => bare
  | _ => bare.withNote "the tree document does not follow the interchange format"

end ImportError

end FlowDesugar
