/-!
# Diagnostics

A diagnostic is a message with the range of source text it is about, if that is known, and notes
that explain it. Every diagnostic of this program is an error.
-/

namespace FlowDesugar

/-- A range of bytes in the source text: from `start` up to, and without, `stop`. -/
structure Label where
  start : Nat
  stop : Nat
deriving DecidableEq, Repr

/-- A message for the user. -/
structure Diagnostic where
  message : String
  label : Option Label := none
  notes : List String := []
deriving DecidableEq, Repr

namespace Diagnostic

/-- Points to a range of the source text. -/
def withLabel (diagnostic : Diagnostic) (label : Label) : Diagnostic :=
  { diagnostic with label := some label }

/-- Adds a note after those already there. -/
def withNote (diagnostic : Diagnostic) (note : String) : Diagnostic :=
  { diagnostic with notes := diagnostic.notes ++ [note] }

end Diagnostic

end FlowDesugar
