import FlowDesugar.Host
import FlowDesugar.SourceText

/-!
# What can end a run

A run ends early if its settings, its source text or its tree cannot be had, if a definition is
malformed, or if the result cannot be written.
-/

namespace FlowDesugar

/-- What is wrong with the text of a settings file. -/
inductive SettingsFault where
  /-- The text is not TOML. -/
  | notToml
  /-- The keywords are no array. -/
  | keywordsNotArray
  /-- Some keyword is no string. -/
  | keywordsNotStrings
deriving DecidableEq, Repr

/-- The wording of a fault. -/
def SettingsFault.message : SettingsFault → String
  | notToml => "the text is not valid TOML"
  | keywordsNotArray => "keywords must be an array"
  | keywordsNotStrings => "keywords must be strings"

/-- Why a run ended. -/
inductive RunError where
  /-- A definition is malformed. -/
  | definition (error : MalformedDefinition)
  /-- The tree is refused. -/
  | tree (error : ImportError)
  /-- The input could not be read or the result not be written. -/
  | host (error : HostError)
  /-- A settings file is not as it should be. -/
  | settings (path : String) (fault : SettingsFault)
  /-- A file cannot be read, or is not UTF-8. -/
  | unreadable (path : String)
deriving DecidableEq, Repr

namespace RunError

/-- The wording of an error. -/
def message : RunError → String
  | definition error => error.message
  | tree error => error.message
  | host error => error.message
  | settings path fault => "invalid settings in " ++ path ++ ": " ++ fault.message
  | unreadable path => "path " ++ path ++ " could not be read"

/-- The diagnostic of an error. That of a malformed definition points into the source text, if there
is one and the definition's position is known. -/
def diagnostic (map : SourceMap) (source : Option SourceText) : RunError → Diagnostic
  | definition error =>
    let diagnostic := error.diagnostic map
    match source, map.position? error.loc with
    | some source, some position => diagnostic.pointTo (some source) position
    | _, _ => diagnostic
  | tree error => error.diagnostic
  | error => { message := error.message }

end RunError

end FlowDesugar
