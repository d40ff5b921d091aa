import FlowDesugar.Options
import FlowDesugar.RunError
import FlowDesugar.Toml.Document

/-!
# Settings

A settings file is TOML and may set `keywords`, an array of strings. The file that applies is the
one named on the command line; failing that, and unless settings are to be left alone, the nearest
one in the working directory and those above it, or else the one in the user's directory.

The keywords are those of the file, or the default if it sets none or there is no file, followed by
those of the command line that are not among them.
-/

namespace FlowDesugar.Settings

variable {m : Type → Type} [Monad m]

/-- The name of a settings file. -/
def fileName : String := "procsugar.toml"

/-- The name of the settings file in the user's directory. -/
def userFileName : String := ".procsugar.toml"

/-- The text of a string. -/
def string? : Toml.Value → Option String
  | .string text => some text
  | _ => none

/-- The keywords that a settings text sets, if it does. -/
def keywordsIn (text : String) : Except SettingsFault (Option (List String)) :=
  match Toml.read? text with
  | none => .error .notToml
  | some settings =>
    match settings.get? "keywords" with
    | none => .ok none
    | some (.array items) =>
      match items.mapM string? with
      | some words => .ok (some words)
      | none => .error .keywordsNotStrings
    | some _ => .error .keywordsNotArray

/-- The first path of a list that leads to a file. -/
def firstFile (host : Host m) : List String → m (Option String)
  | [] => return none
  | path :: paths => do
    if ← host.isFile path then return some path
    firstFile host paths

/-- The settings file in a directory or the nearest one above it. -/
def nearest (host : Host m) (directory : String) : m (Option String) :=
  firstFile host ((Files.ancestors directory).map (Files.join · fileName))

/-- The settings file in the user's directory. -/
def userFile (host : Host m) : m (Option String) := do
  match ← host.homeDirectory with
  | none => return none
  | some home => firstFile host [Files.join home userFileName]

/-- The settings file that applies. -/
def chosenFile (host : Host m) (options : Options) : m (Option String) := do
  match options.config with
  | some path => return some path
  | none =>
    if options.batch then return none
    let found ← match ← host.workingDirectory with
      | some directory => nearest host directory
      | none => pure none
    match found with
    | some path => return some path
    | none => userFile host

/-- The keywords that a settings file amounts to. -/
def readFile (host : Host m) (path : String) : ExceptT RunError m Keywords := do
  match ← ExceptT.lift (host.readText path) with
  | none => throw (.unreadable path)
  | some text =>
    match keywordsIn text with
    | .error fault => throw (.settings path fault)
    | .ok none => return .default
    | .ok (some words) => return ⟨words⟩

/-- The keywords of a run. -/
def load (host : Host m) (options : Options) : ExceptT RunError m Keywords := do
  let base ← match ← ExceptT.lift (chosenFile host options) with
    | some path => readFile host path
    | none => pure .default
  return base.insertAll options.keywords

end FlowDesugar.Settings
