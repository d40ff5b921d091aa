import FlowDesugar.Files.Path
import FlowDesugar.Text.Blank
import FlowDesugar.Text.Lines

/-!
# A store of files

A store holds files and directories by the names that lead to them from the root, which is always
there. Paths are followed name by name: `..` leads back only from a directory, and a slash after a
name asks for a directory.
-/

namespace FlowDesugar.Files

/-- What a path can lead to. -/
inductive Entry where
  | file (content : ByteArray)
  | directory

/-- The names from the root to an entry. -/
abbrev Place := List String

/-- Files and directories by their places. -/
structure Store where
  entries : List (Place × Entry) := []

/-- Why a path cannot be followed or written to. -/
inductive PathError where
  | noSuchFile
  | notDirectory
  | isDirectory
deriving DecidableEq, Repr

/-- The wording of a problem. -/
def PathError.message : PathError → String
  | .noSuchFile => "No such file or directory (os error 2)"
  | .notDirectory => "Not a directory (os error 20)"
  | .isDirectory => "Is a directory (os error 21)"

namespace Store

/-- The entry at a place. -/
def get? (store : Store) (place : Place) : Option Entry :=
  if place.isEmpty then some .directory
  else (store.entries.find? fun entry => entry.1 = place).map Prod.snd

/-- Puts an entry at a place, instead of the one that is there. -/
def insert (store : Store) (place : Place) (entry : Entry) : Store :=
  ⟨(place, entry) :: store.entries.filter fun other => other.1 ≠ place⟩

/-- Makes the directories that lead to a place, where there is nothing yet. -/
def insertDirectories (store : Store) (place : Place) : Store :=
  (List.range (place.length + 1)).foldl (fun store count =>
    if (store.get? (place.take count)).isSome then store
    else store.insert (place.take count) .directory) store

/-- Follows names from a directory. Gives the place they lead to, where there may be nothing yet if
all names but the last lead through directories. -/
def follow (store : Store) (place : Place) : List String → Except PathError Place
  | [] => .ok place
  | name :: names =>
    if name = "" ∨ name = "." then store.follow place names
    else if name = ".." then store.follow place.dropLast names
    else
      let place := place ++ [name]
      if names.isEmpty then .ok place
      else match store.get? place with
        | some .directory => store.follow place names
        | some (.file _) => .error .notDirectory
        | none => .error .noSuchFile

/-- The names of a path. -/
def names (path : String) : List String :=
  (Text.splitAt '/' path.toList).map String.ofList

/-- Follows a path from the directory at `current`. -/
def locate (store : Store) (current : Place) (path : String) : Except PathError Place :=
  if path.isEmpty then .error .noSuchFile
  else store.follow (if path.toList.head? = some '/' then [] else current) (names path)

/-- The content of the file a path leads to. -/
def read? (store : Store) (current : Place) (path : String) : Option ByteArray :=
  match store.locate current path with
  | .error _ => none
  | .ok place =>
    match store.get? place with
    | some (.file content) => some content
    | _ => none

/-- Whether a path leads to a file. -/
def isFile (store : Store) (current : Place) (path : String) : Bool :=
  (store.read? current path).isSome

/-- Whether a path asks for a directory. -/
def asksDirectory (path : String) : Bool :=
  path.toList.getLast? = some '/'

/-- Writes a file, which is made if there is none. The directory it is in has to be there. -/
def write (store : Store) (current : Place) (path : String) (content : ByteArray) :
    Except PathError Store := do
  let asked := String.ofList (Text.dropEnd (· = '/') path.toList)
  let place ← store.locate current (if asked.isEmpty then path else asked)
  if asksDirectory path then throw .isDirectory
  match store.get? place with
  | some .directory => throw .isDirectory
  | _ => return store.insert place (.file content)

end Store

end FlowDesugar.Files
