import FlowDesugar.Settings
import FlowDesugar.Statistics
import FlowDesugar.Desugar

/-!
# A run

A run loads the settings, the source text and the tree, desugars the tree, and writes the result.
Problems that do not end it become diagnostics. The result goes to a writer, and only after the
whole tree has been desugared. The writer prints it or, if a file is named for the result, collects
it for the file, which is written last. So a run that ends early has printed nothing and leaves the
file as it is.

If no source text was asked for and the tree comes from a file, the script that the tree names is
looked for beside it.
-/

namespace FlowDesugar

/-- The state of a run. It is also there after an error. -/
structure Session where
  registry : Registry := {}
  source : Option SourceText := none
  statistics : Statistics := {}
  /-- What has been collected for the file that is named for the result. -/
  rendered : String := ""

/-- What a run that reached its end has to tell. -/
structure RunResult where
  diagnostics : List Diagnostic
  definitions : List DefinitionSummary

/-- Zero if there were no problems, one if there were. -/
def RunResult.exitCode (result : RunResult) : Nat :=
  if result.diagnostics.isEmpty then 0 else 1

/-- A step of a run. -/
abbrev RunM (m : Type → Type) := ExceptT RunError (StateT Session m)

/-- What the result of a run is written with. -/
abbrev Writer (m : Type → Type) := String → RunM m Unit

namespace Run

variable {m : Type → Type} [Monad m]

/-- Asks the host. -/
def ask {α : Type} (action : m α) : RunM m α :=
  ExceptT.lift (StateT.lift action)

/-- Takes a step of the settings. -/
def ofSettings {α : Type} (action : ExceptT RunError m α) : RunM m α := do
  match ← ask action.run with
  | .ok a => return a
  | .error error => throw error

/-- Times a phase. A phase that fails leaves no time. -/
def timed {α : Type} (host : Host m) (phase : String) (action : RunM m α) : RunM m α := do
  let start ← ask host.now
  let a ← action
  let stop ← ask host.now
  modify fun session =>
    let timings := session.statistics.timings.record phase (stop - start)
    { session with statistics := { session.statistics with timings } }
  return a

/-- The text of a file. -/
def readText (host : Host m) (path : String) : RunM m String := do
  match ← ask (host.readText path) with
  | some text => return text
  | none => throw (.unreadable path)

/-- Loads the source text. -/
def fetchSource (host : Host m) (path : String) : RunM m Unit := do
  let content ← readText host path
  modify fun session => { session with source := some ⟨path, content⟩ }

/-- Loads the source text that a tree names, if there is such a file beside it that can be read. -/
def findSource (host : Host m) (tree name : String) : RunM m Unit := do
  let path := Files.join ((Files.parent? tree).getD "") name
  if ← ask (host.isFile path) then
    match ← ask (host.readText path) with
    | some content => modify fun session => { session with source := some ⟨path, content⟩ }
    | none => return ()
  else return ()

/-- The text of the tree. -/
def treeText (host : Host m) (options : Options) : RunM m String := do
  if options.readsInput then
    match String.fromUTF8? (← ask host.readInput) with
    | some text => return text
    | none => throw (.host .notText)
  else readText host options.tree

/-- Loads the tree. -/
def fetchTree (host : Host m) (options : Options) : RunM m Document := do
  let text ← treeText host options
  let session ← get
  match (Interchange.parseDocument options.format text).run session.registry with
  | .ok (document, registry) =>
    set { session with registry }
    return document
  | .error error => throw (.tree error)

/-- Desugars the tree. Gives the result with what was reported and recorded. -/
def desugar (keywords : Keywords) (body : Block) : RunM m (Block × Progress) := do
  let session ← get
  let (result, progress) := (body.desugar keywords).run { registry := session.registry }
  set { session with registry := progress.registry }
  match result with
  | .ok body => return (body, progress)
  | .error error => throw (.definition error)

/-- Everything up to the end of the export, which is where the result is written. -/
def produce (host : Host m) (options : Options) (writer : Writer m) : RunM m RunResult := do
  let keywords ← ofSettings (Settings.load host options)
  if let some path := options.source then fetchSource host path
  let document ← timed host "import" (fetchTree host options)
  if (← get).source.isNone ∧ !options.readsInput then
    if let some name := document.source then findSource host options.tree name
  let (body, progress) ← timed host "desugar" (desugar keywords document.body)
  let map := (← get).registry.sourceMap
  timed host "export" (writer (options.exportAs.write map document.source body))
  let diagnostics := progress.reports.map (Report.diagnostic (← get).source)
  modify fun session =>
    { session with statistics :=
      { session.statistics with
        definitions := progress.records
        diagnostics := diagnostics.length } }
  return ⟨diagnostics, progress.records⟩

/-- The writer of a run. Its result is printed or, if a file is named for it, collected. -/
def writer (host : Host m) (options : Options) : Writer m := fun text => do
  match options.output with
  | none =>
    match ← ask (host.print text) with
    | .ok () => return ()
    | .error error => throw (.host error)
  | some _ => modify fun session => { session with rendered := session.rendered ++ text }

/-- A run. The file that is named for its result is written last. -/
def perform (host : Host m) (options : Options) : RunM m RunResult := do
  let result ← produce host options (writer host options)
  match options.output with
  | none => return result
  | some path =>
    match ← ask (host.writeFile path (← get).rendered) with
    | .ok () => return result
    | .error error => throw (.host error)

end Run

end FlowDesugar
