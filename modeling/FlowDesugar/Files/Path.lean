/-!
# Paths

A path is a text of names between slashes. A leading slash makes it absolute; repeated slashes,
slashes at the end and names `.` after the first do not count. Nothing here looks at files.
-/

namespace FlowDesugar.Files

/-- A path, read from its end, without the slashes and the names `.` it ends in. The root stays. -/
def trimReversed : List Char → List Char
  | '/' :: c :: rest => trimReversed (c :: rest)
  | '.' :: '/' :: rest => trimReversed ('/' :: rest)
  | cs => cs

/-- The path without its last name. The root and the empty path have none. -/
def parent? (path : String) : Option String :=
  match trimReversed path.toList.reverse with
  | [] => none
  | ['/'] => none
  | cs => some (String.ofList (trimReversed (cs.dropWhile (· ≠ '/'))).reverse)

/-- A path and the paths above it, at most `bound` of them. -/
def ancestorsWithin : (bound : Nat) → (path : String) → List String
  | 0, path => [path]
  | bound + 1, path =>
    match parent? path with
    | none => [path]
    | some parent => path :: ancestorsWithin bound parent

/-- A path and all paths above it. A parent is shorter than its path, so the length bounds their
number. -/
def ancestors (path : String) : List String :=
  ancestorsWithin path.length path

/-- The path `name` as seen from `base`. An absolute path is the same from everywhere. -/
def join (base name : String) : String :=
  if name.toList.head? = some '/' ∨ base.isEmpty then name
  else if base.toList.getLast? = some '/' then base ++ name
  else base ++ "/" ++ name

end FlowDesugar.Files
