import FlowDesugar.Run
import FlowDesugar.Proofs.Worlds

/-!
# Runs in closed form

In a world, everything a run does up to the writing of its result is a function of the world, which
it leaves as it is. `World.translation` is this function: it takes the keywords, the source text and
the tree from the world, in this order, and desugars the tree. The first of these that cannot be had
ends it.

`Run.endsWriting_produce` says that a run comes to the same, whatever its result is written with. If
there is a translation, the writer is handed its text, once and after everything else. If there is
none, the run ends in the same way for every writer: the writer is not used (`Run.EndsWriting`).

Of the source text only that it can be had matters for the translation; otherwise it is only what
diagnostics point to.

`Run.Ends` says how a step of a run ends, and the rules beside it take a run apart into its steps,
so that the layers of the monad are opened here only.
-/

namespace FlowDesugar

/-! ### What a run translates -/

/-- A tree that was read and desugared, with what was noted on the way. -/
structure Translation where
  document : Document
  body : Block
  progress : Progress

namespace Translation

/-- The desugared tree as text. -/
def text (translation : Translation) (options : Options) : String :=
  options.exportAs.write translation.progress.registry.sourceMap translation.document.source
    translation.body

/-- The result of a run, with diagnostics that point into `source`. -/
def result (translation : Translation) (source : Option SourceText) : RunResult where
  diagnostics := translation.progress.reports.map (Report.diagnostic source)
  definitions := translation.progress.records

end Translation

/-- Desugars a tree that was read. -/
def Document.translated (keywords : Keywords) (registry : Registry) (document : Document) :
    Except RunError Translation :=
  match (document.body.desugar keywords).run { registry } with
  | (.ok body, progress) => .ok ⟨document, body, progress⟩
  | (.error error, _) => .error (.definition error)

theorem Document.translated_eq_ok {keywords : Keywords} {registry : Registry} {document : Document}
    {t : Translation} : document.translated keywords registry = .ok t ↔
      (document.body.desugar keywords).run { registry } = (.ok t.body, t.progress) ∧
        t.document = document := by
  unfold translated
  rcases (document.body.desugar keywords).run { registry } with ⟨result, progress⟩
  cases result with
  | error error =>
    constructor
    · intro h
      cases h
    · rintro ⟨h, -⟩
      cases h
  | ok body =>
    constructor
    · intro h
      cases h
      exact ⟨rfl, rfl⟩
    · rintro ⟨h, rfl⟩
      cases h
      rfl

/-- The statistics of a session are those of a translation. -/
structure Session.Accounts (session : Session) (translation : Translation) : Prop where
  definitions_eq : session.statistics.definitions = translation.progress.records
  diagnostics_eq : session.statistics.diagnostics = translation.progress.reports.length

namespace World

/-- The text of a file that has to be there. -/
def readText (world : World) (path : String) : Except RunError String :=
  match world.text? path with
  | some text => .ok text
  | none => .error (.unreadable path)

theorem readText_of_text? {world : World} {path text : String} (h : world.text? path = some text) :
    world.readText path = .ok text := by
  unfold readText
  rw [h]

/-- The source text that is asked for, if one is. -/
def givenSource (world : World) (options : Options) : Except RunError (Option SourceText) :=
  match options.source with
  | none => .ok none
  | some path => (world.readText path).map fun content => some ⟨path, content⟩

/-- The text of the tree. -/
def treeText (world : World) (options : Options) : Except RunError String :=
  if options.readsInput then
    match String.fromUTF8? world.input with
    | some text => .ok text
    | none => .error (.host .notText)
  else world.readText options.tree

/-- The tree, and the registry of its locations and scopes. -/
def parsed (world : World) (options : Options) : Except RunError (Document × Registry) := do
  let text ← world.treeText options
  ((Interchange.parseDocument options.format text).run {}).mapError RunError.tree

theorem parsed_of_treeText {world : World} {options : Options} {text : String}
    (h : world.treeText options = .ok text) :
    world.parsed options
      = ((Interchange.parseDocument options.format text).run {}).mapError RunError.tree := by
  unfold parsed
  rw [h]
  rfl

/-- What a run translates. -/
def translation (world : World) (options : Options) : Except RunError Translation := do
  let keywords ← world.keywords options
  let _ ← world.givenSource options
  let (document, registry) ← world.parsed options
  document.translated keywords registry

end World

/-! ### Steps -/

namespace Run

variable {α β : Type} {world between changed : World} {before middle after : Session}

/-- In a world and from the session `before`, a step ends with `result`, the session `after` and the
world `changed`. -/
def Ends (world : World) (x : RunM (StateM World) α) (before : Session)
    (result : Except RunError α) (after : Session) (changed : World) : Prop :=
  (x.run.run before).run world = ((result, after), changed)

namespace Ends

theorem of_pure (a : α) : Ends world (pure a) before (.ok a) before world := rfl

theorem of_throw (error : RunError) :
    Ends world (throw error : RunM (StateM World) α) before (.error error) before world := rfl

theorem of_get : Ends world get before (.ok before) before world := rfl

theorem of_set : Ends world (set after) before (.ok ⟨⟩) after world := rfl

theorem of_modify (f : Session → Session) :
    Ends world (modify f) before (.ok ⟨⟩) (f before) world := rfl

theorem of_ask {action : StateM World α} {a : α} (h : action.run world = (a, changed)) :
    Ends world (ask action) before (.ok a) before changed := by
  unfold Ends ask
  rw [ExceptT.run_lift, StateT.run_map, StateT.run_lift, map_bind, World.run_bind_of h]
  rfl

/-- After a step that ends with a result, the run goes on with it. -/
theorem bind {x : RunM (StateM World) α} {f : α → RunM (StateM World) β} {a : α}
    {result : Except RunError β} (hx : Ends world x before (.ok a) middle between)
    (hf : Ends between (f a) middle result after changed) :
    Ends world (x >>= f) before result after changed := by
  unfold Ends at hx
  unfold Ends
  rw [ExceptT.run_bind, StateT.run_bind, World.run_bind_of hx]
  exact hf

/-- After a step that ends with an error, the run ends with it. -/
theorem bind_error {x : RunM (StateM World) α} {f : α → RunM (StateM World) β} {error : RunError}
    (hx : Ends world x before (.error error) after changed) :
    Ends world (x >>= f) before (.error error) after changed := by
  unfold Ends at hx
  unfold Ends
  rw [ExceptT.run_bind, StateT.run_bind, World.run_bind_of hx]
  rfl

theorem of_settings {action : ExceptT RunError (StateM World) α} {result : Except RunError α}
    (h : action.run.run world = (result, world)) :
    Ends world (ofSettings action) before result before world := by
  refine (of_ask h).bind ?_
  cases result with
  | ok a => exact of_pure a
  | error error => exact of_throw error

theorem of_now : Ends world (ask World.host.now) before (.ok 0) before world := of_ask rfl

/-- A phase that ends with a result leaves its time, and nothing else of its own. -/
theorem timed {x : RunM (StateM World) α} {a : α} (phase : String)
    (hx : Ends world x before (.ok a) middle changed) :
    ∃ statistics, Ends world (Run.timed World.host phase x) before (.ok a)
      { middle with statistics } changed :=
  ⟨_, of_now.bind (hx.bind (of_now.bind ((of_modify _).bind (of_pure a))))⟩

theorem timed_error {x : RunM (StateM World) α} {error : RunError} (phase : String)
    (hx : Ends world x before (.error error) after changed) :
    Ends world (Run.timed World.host phase x) before (.error error) after changed :=
  of_now.bind hx.bind_error

end Ends

/-! ### The steps of a run -/

theorem ends_readText (path : String) :
    Ends world (readText World.host path) before (world.readText path) before world := by
  refine (Ends.of_ask (world.run_readText path)).bind ?_
  unfold World.readText
  cases world.text? path with
  | some text => exact .of_pure text
  | none => exact .of_throw _

theorem ends_treeText (options : Options) :
    Ends world (treeText World.host options) before (world.treeText options) before world := by
  unfold treeText World.treeText
  cases options.readsInput with
  | true =>
    have hinput : World.host.readInput.run world = (world.input, world) := rfl
    refine (Ends.of_ask hinput).bind ?_
    cases String.fromUTF8? world.input with
    | some text => exact .of_pure text
    | none => exact .of_throw _
  | false => exact ends_readText options.tree

/-- Looking for the source text that a tree names always ends well, and changes nothing but the
source text. -/
theorem ends_findSource (tree name : String) :
    ∃ source, Ends world (findSource World.host tree name) before (.ok ())
      { before with source } world := by
  unfold findSource
  generalize Files.join ((Files.parent? tree).getD "") name = path
  have hfile : Ends world (ask (World.host.isFile path)) before (.ok (world.isFile path)) before
      world := .of_ask (world.run_isFile path)
  have htext : Ends world (ask (World.host.readText path)) before (.ok (world.text? path)) before
      world := .of_ask (world.run_readText path)
  cases hisFile : world.isFile path with
  | false =>
    rw [hisFile] at hfile
    exact ⟨before.source, hfile.bind (.of_pure ())⟩
  | true =>
    rw [hisFile] at hfile
    cases hread : world.text? path with
    | none =>
      rw [hread] at htext
      exact ⟨before.source, hfile.bind (htext.bind (.of_pure ()))⟩
    | some content =>
      rw [hread] at htext
      exact ⟨some ⟨path, content⟩, hfile.bind (htext.bind (.of_modify _))⟩

/-- The tree is read with an empty registry, which is left with its locations and scopes. -/
theorem ends_fetchTree (world : World) (options : Options) (before : Session)
    (hbefore : before.registry = {}) :
    ∃ registry, Ends world (fetchTree World.host options) before
        ((world.parsed options).map Prod.fst) { before with registry } world ∧
      ∀ parsed, world.parsed options = .ok parsed → registry = parsed.2 := by
  have htext : Ends world (treeText World.host options) before (world.treeText options) before
      world := ends_treeText options
  cases hread : world.treeText options with
  | error error =>
    have hparsed : world.parsed options = .error error := by
      unfold World.parsed
      rw [hread]
      rfl
    rw [hread] at htext
    rw [hparsed]
    exact ⟨before.registry, htext.bind_error, fun _ h => by cases h⟩
  | ok text =>
    rw [hread] at htext
    rw [World.parsed_of_treeText hread, ← hbefore]
    cases hparse : (Interchange.parseDocument options.format text).run before.registry with
    | error error =>
      refine ⟨before.registry, htext.bind (Ends.bind .of_get ?_), fun _ h => by cases h⟩
      rw [hparse]
      exact .of_throw _
    | ok parsed =>
      refine ⟨parsed.2, htext.bind (Ends.bind .of_get ?_), ?_⟩
      · rw [hparse]
        exact Ends.bind .of_set (.of_pure _)
      · intro other h
        cases h
        rfl

/-! ### Writing -/

/-- How a run ends, whose result is written with a writer and which is to come to a translation. The
run is one for every writer. -/
inductive EndsWriting (world : World) (options : Options)
    (x : Writer (StateM World) → RunM (StateM World) RunResult) (before : Session) :
    Except RunError Translation → Prop
  /-- The run ends early. It does so with every writer, and nothing has been written. -/
  | early {error : RunError} {session : Session} (rendered_eq : session.rendered = before.rendered)
      (ends : ∀ writer, Ends world (x writer) before (.error error) session world) :
      EndsWriting world options x before (.error error)
  /-- The writer is handed the text of the translation. What it does is all that is written. -/
  | late {t : Translation} {ready : Session} (rendered_eq : ready.rendered = before.rendered)
      (ends : ∀ writer written changed,
        Ends world (writer (t.text options)) ready (.ok ()) written changed →
          ∃ session, Ends world (x writer) before (.ok (t.result session.source)) session changed ∧
            session.rendered = written.rendered ∧ session.Accounts t) :
      EndsWriting world options x before (.ok t)

namespace EndsWriting

variable {options : Options} {y : RunM (StateM World) α}
  {f : α → Writer (StateM World) → RunM (StateM World) RunResult}

/-- A step that ends with a result and writes nothing can come first. -/
theorem bind {a : α} {translation : Except RunError Translation}
    (hy : Ends world y before (.ok a) middle world)
    (hrendered : middle.rendered = before.rendered)
    (hf : EndsWriting world options (f a) middle translation) :
    EndsWriting world options (fun writer => y >>= (f · writer)) before translation := by
  cases hf with
  | early heq hends => exact .early (heq.trans hrendered) fun writer => hy.bind (hends writer)
  | late heq hends =>
    refine .late (heq.trans hrendered) fun writer written changed hwriter => ?_
    obtain ⟨session, hsession, hrest⟩ := hends writer written changed hwriter
    exact ⟨session, hy.bind hsession, hrest⟩

/-- If a step ends with an error, what would come after it does not matter. -/
theorem bind_error {error : RunError} (hy : Ends world y before (.error error) middle world)
    (hrendered : middle.rendered = before.rendered) :
    EndsWriting world options (fun writer => y >>= (f · writer)) before (.error error) :=
  .early hrendered fun _ => hy.bind_error

end EndsWriting

/-! ### The parts of a run -/

section parts

variable {m : Type → Type} [Monad m]

/-- Loads the source text that is asked for. -/
def giveSource (host : Host m) (options : Options) : RunM m Unit :=
  match options.source with
  | some path => fetchSource host path
  | none => pure ()

/-- Looks for the source text that the tree names, if none was asked for. -/
def seekSource (host : Host m) (options : Options) (document : Document) : RunM m Unit := do
  if (← get).source.isNone ∧ !options.readsInput then
    match document.source with
    | some name => findSource host options.tree name
    | none => pure ()

/-- Desugars the tree, writes it as text and completes the statistics. -/
def conclude (host : Host m) (options : Options) (keywords : Keywords) (document : Document)
    (writer : Writer m) : RunM m RunResult := do
  let (body, progress) ← timed host "desugar" (desugar keywords document.body)
  let map := (← get).registry.sourceMap
  timed host "export" (writer (options.exportAs.write map document.source body))
  let diagnostics := progress.reports.map (Report.diagnostic (← get).source)
  modify fun session =>
    { session with statistics :=
      { session.statistics with
        definitions := progress.records
        diagnostics := diagnostics.length } }
  return ⟨diagnostics, progress.records⟩

/-- **The parts of a run**, one after the other. -/
theorem produce_eq [LawfulMonad m] (host : Host m) (options : Options) :
    produce host options = fun writer => (do
      let keywords ← ofSettings (Settings.load host options)
      giveSource host options
      let document ← timed host "import" (fetchTree host options)
      seekSource host options document
      conclude host options keywords document writer) := by
  funext writer
  unfold produce
  refine congrArg _ (funext fun keywords => ?_)
  -- what follows the source text that is asked for, and what follows the one that is looked for
  extract_lets rest
  have hrest : ∀ u, rest u = (do
      let document ← timed host "import" (fetchTree host options)
      seekSource host options document
      conclude host options keywords document writer) := by
    intro u
    unfold rest seekSource
    refine congrArg _ (funext fun document => ?_)
    rw [bind_assoc]
    refine congrArg _ (funext fun session => ?_)
    extract_lets last
    have hlast : ∀ u, last u = conclude host options keywords document writer := fun _ => rfl
    clear_value last
    split
    · cases document.source with
      | none => simp only [pure_bind, hlast]
      | some name => simp only [hlast]
    · simp only [pure_bind, hlast]
  clear_value rest
  unfold giveSource
  cases options.source with
  | none => simp only [pure_bind, hrest]
  | some path => simp only [hrest]

end parts

theorem ends_giveSource (world : World) (options : Options) (before : Session) :
    ∃ source, Ends world (giveSource World.host options) before
      ((world.givenSource options).map fun _ => ()) { before with source } world := by
  unfold giveSource World.givenSource
  cases options.source with
  | none => exact ⟨before.source, .of_pure ()⟩
  | some path =>
    have htext : Ends world (readText World.host path) before (world.readText path) before world :=
      ends_readText path
    simp only
    cases hread : world.readText path with
    | error error =>
      rw [hread] at htext
      exact ⟨before.source, htext.bind_error⟩
    | ok content =>
      rw [hread] at htext
      exact ⟨some ⟨path, content⟩, htext.bind (.of_modify _)⟩

theorem ends_seekSource (world : World) (options : Options) (document : Document)
    (before : Session) :
    ∃ source, Ends world (seekSource World.host options document) before (.ok ())
      { before with source } world := by
  unfold seekSource
  by_cases hseek : before.source.isNone ∧ !options.readsInput
  · cases document.source with
    | none =>
      refine ⟨before.source, Ends.bind .of_get ?_⟩
      rw [if_pos hseek]
      exact .of_pure ()
    | some name =>
      obtain ⟨source, hfind⟩ := ends_findSource options.tree name
      refine ⟨source, Ends.bind .of_get ?_⟩
      rw [if_pos hseek]
      exact hfind
  · refine ⟨before.source, Ends.bind .of_get ?_⟩
    rw [if_neg hseek]
    exact .of_pure ()

/-- What is left once the tree is there. -/
theorem endsWriting_conclude (world : World) (options : Options) (keywords : Keywords)
    (document : Document) (before : Session) :
    EndsWriting world options (conclude World.host options keywords document) before
      (document.translated keywords before.registry) := by
  unfold Document.translated
  rcases hrun : (document.body.desugar keywords).run { registry := before.registry }
    with ⟨result, progress⟩
  cases result with
  | error error =>
    have hpass : Ends world (desugar keywords document.body) before (.error (.definition error))
        { before with registry := progress.registry } world := by
      refine Ends.bind .of_get ?_
      rw [hrun]
      exact Ends.bind .of_set (.of_throw _)
    exact .bind_error (hpass.timed_error "desugar") rfl
  | ok body =>
    have hpass : Ends world (desugar keywords document.body) before (.ok (body, progress))
        { before with registry := progress.registry } world := by
      refine Ends.bind .of_get ?_
      rw [hrun]
      exact Ends.bind .of_set (.of_pure _)
    obtain ⟨statistics, hdesugar⟩ := hpass.timed "desugar"
    refine .bind hdesugar rfl (.late rfl fun writer written changed hwriter => ?_)
    obtain ⟨statistics', hexport⟩ := hwriter.timed "export"
    -- the last step counts the diagnostics, which it makes from the reports
    exact ⟨{ written with statistics := { statistics' with
        definitions := progress.records
        diagnostics := (progress.reports.map (Report.diagnostic written.source)).length } },
      Ends.bind .of_get (hexport.bind (Ends.bind .of_get (Ends.bind (.of_modify _) (.of_pure _)))),
      rfl, ⟨rfl, List.length_map _⟩⟩

/-- **A run in closed form**, whatever its result is written with. -/
theorem endsWriting_produce (world : World) (options : Options) :
    EndsWriting world options (produce World.host options) {} (world.translation options) := by
  have hload : Ends world (ofSettings (Settings.load World.host options)) {}
      (world.keywords options) {} world := .of_settings (world.run_load options)
  rw [produce_eq]
  unfold World.translation
  cases hkeywords : world.keywords options with
  | error error =>
    rw [hkeywords] at hload
    exact .bind_error hload rfl
  | ok keywords =>
    rw [hkeywords] at hload
    refine .bind hload rfl ?_
    obtain ⟨given, hgive⟩ := ends_giveSource world options {}
    cases hsource : world.givenSource options with
    | error error =>
      rw [hsource] at hgive
      exact .bind_error hgive rfl
    | ok source =>
      rw [hsource] at hgive
      refine .bind hgive rfl ?_
      obtain ⟨registry, hfetch, hregistry⟩ := ends_fetchTree world options { source := given } rfl
      cases hparsed : world.parsed options with
      | error error =>
        rw [hparsed] at hfetch
        exact .bind_error (hfetch.timed_error "import") rfl
      | ok parsed =>
        rw [hparsed] at hfetch
        obtain ⟨statistics, himport⟩ := hfetch.timed "import"
        refine .bind himport rfl ?_
        obtain ⟨sought, hseek⟩ := ends_seekSource world options parsed.1 _
        refine .bind hseek rfl ?_
        -- the registry is still as the tree left it
        cases hregistry parsed hparsed
        exact endsWriting_conclude world options keywords parsed.1 _

end Run

end FlowDesugar
