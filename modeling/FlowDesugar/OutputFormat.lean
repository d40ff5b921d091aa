import FlowDesugar.Interchange.Export
import FlowDesugar.Json.Writer
import FlowDesugar.Tree.Surface

/-!
# Export formats

A tree can be written as script text or as a tree document, which can be read again.
-/

namespace FlowDesugar

/-- How a tree is written. -/
inductive OutputFormat where
  /-- Script text. -/
  | pretty
  /-- A tree document. -/
  | json
deriving DecidableEq, Repr

namespace OutputFormat

/-- The name of a format. -/
def name : OutputFormat → String
  | pretty => "pretty"
  | json => "json"

/-- The format of a name. Script text also goes by `text`. -/
def ofName? (name : String) : Option OutputFormat :=
  if name = "pretty" ∨ name = "text" then some pretty
  else if name = "json" then some json
  else none

/-- The wording for a name that belongs to no format. -/
def unknownMessage (name : String) : String :=
  "unknown export format " ++ name

/-- Writes a tree. `source` names the script that it comes from. -/
def write (format : OutputFormat) (map : SourceMap) (source : Option String) (body : Block) :
    String :=
  match format with
  | pretty => body.surface
  | json => Json.write (Interchange.writeDocument map source body)

end OutputFormat

end FlowDesugar
