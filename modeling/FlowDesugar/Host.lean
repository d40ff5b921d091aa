import FlowDesugar.Files.Store

/-!
# What a run needs from outside

A run reads and writes files, reads its input, prints, asks for directories and looks at the clock.
`Host` is the record of these abilities in a monad, so that the same run works on the machine at
hand and on a `World`, which is a value.
-/

namespace FlowDesugar

/-- What can go wrong with input and output. -/
inductive HostError where
  /-- A path cannot be followed or written to. -/
  | path (error : Files.PathError)
  /-- The input is not UTF-8. -/
  | notText
  /-- Anything else, in the words of the system. -/
  | other (message : String)
deriving DecidableEq, Repr

/-- The wording of a problem. -/
def HostError.message : HostError → String
  | path error => error.message
  | notText => "stream did not contain valid UTF-8"
  | other message => message

/-- The abilities of a host. -/
structure Host (m : Type → Type) where
  /-- The content of a file, if it can be read. -/
  readFile : String → m (Option ByteArray)
  /-- Whether a path leads to a file. -/
  isFile : String → m Bool
  /-- Writes a text to a file. -/
  writeFile : String → String → m (Except HostError Unit)
  /-- Prints a text on the output. -/
  print : String → m (Except HostError Unit)
  /-- All of the input. -/
  readInput : m ByteArray
  /-- The absolute path of the working directory. -/
  workingDirectory : m (Option String)
  /-- The path of the user's directory. -/
  homeDirectory : m (Option String)
  /-- The time in nanoseconds from a fixed moment on. -/
  now : m Nat

/-- The text of a file, if it can be read and is UTF-8. -/
def Host.readText {m : Type → Type} [Monad m] (host : Host m) (path : String) :
    m (Option String) := do
  return (← host.readFile path).bind String.fromUTF8?

/-- A host that is a value. Its clock stands still. -/
structure World where
  store : Files.Store := {}
  workingDirectory : Files.Place := []
  homeDirectory : Option String := none
  input : ByteArray := .empty
  /-- What has been printed. -/
  output : String := ""

namespace World

/-- The abilities of a world. -/
def host : Host (StateM World) where
  readFile path := do
    let world ← get
    return world.store.read? world.workingDirectory path
  isFile path := do
    let world ← get
    return world.store.isFile world.workingDirectory path
  writeFile path text := do
    let world ← get
    match world.store.write world.workingDirectory path text.toUTF8 with
    | .ok store =>
      set { world with store }
      return .ok ()
    | .error error => return .error (.path error)
  print text := do
    modify fun world => { world with output := world.output ++ text }
    return .ok ()
  readInput := return (← get).input
  workingDirectory := return some ("/" ++ "/".intercalate (← get).workingDirectory)
  homeDirectory := return (← get).homeDirectory
  now := return 0

end World

end FlowDesugar
