/-!
# Definition keywords

A call without a receiver is a definition if its method is one of the keywords. Unless others are
set, the one keyword is `process`.
-/

namespace FlowDesugar

/-- The keywords, in order. -/
structure Keywords where
  words : List String
deriving DecidableEq, Repr

namespace Keywords

/-- The keywords that hold if none are set. -/
def default : Keywords := ⟨["process"]⟩

/-- Whether a method is a keyword. -/
def contains (keywords : Keywords) (method : String) : Bool :=
  keywords.words.contains method

/-- Adds a keyword at the end, unless it is there. -/
def insert (keywords : Keywords) (word : String) : Keywords :=
  if keywords.contains word then keywords else ⟨keywords.words ++ [word]⟩

/-- Adds keywords one after another. -/
def insertAll (keywords : Keywords) (words : List String) : Keywords :=
  words.foldl insert keywords

end Keywords

end FlowDesugar
