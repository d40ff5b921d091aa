import FlowDesugar.CommandLine
import FlowDesugar.Proofs.Runs
import FlowDesugar.Proofs.Exchange
import FlowDesugar.Proofs.ClosedForm

/-!
# How the program ends

A run either delivers its result as a whole, on the output or in the file that is named for it, or
it delivers nothing: nothing is printed, and every file is as it was. `Outcome` lists the ways it
can end, with what is delivered. The exit code tells which: two if nothing was delivered, and
otherwise one exactly if some definition is without a script. There are then as many diagnostics as
such definitions.

What is printed is part of the world, and what is collected for a file is part of the session, so
both are there to look at when a run has ended with an error.

The source text is for diagnostics only. Two worlds that differ in a file that is neither the tree
nor a settings file (`DifferInSource`) give the same translation (`DifferInSource.translation_eq`),
and so the same is delivered with the same exit code: `Execution.delivers_all_or_nothing`. A source
text that is asked for has to be there, though (`Execution.requested_source_must_exist`).
-/

namespace FlowDesugar

open Files

/-! ### What a run needs -/

namespace World

variable {world : World} {options : Options}

theorem translation_eq_ok {t : Translation} :
    world.translation options = .ok t ↔
      ∃ keywords source registry, world.keywords options = .ok keywords ∧
        world.givenSource options = .ok source ∧
        world.parsed options = .ok (t.document, registry) ∧
        (t.document.body.desugar keywords).run { registry } = (.ok t.body, t.progress) := by
  unfold translation
  constructor
  · intro h
    cases hkeywords : world.keywords options with
    | error error => rw [hkeywords] at h; cases h
    | ok keywords =>
      cases hsource : world.givenSource options with
      | error error => rw [hkeywords, hsource] at h; cases h
      | ok source =>
        cases hparsed : world.parsed options with
        | error error => rw [hkeywords, hsource, hparsed] at h; cases h
        | ok parsed =>
          rw [hkeywords, hsource, hparsed] at h
          obtain ⟨hrun, hdocument⟩ := Document.translated_eq_ok.mp h
          exact ⟨keywords, source, parsed.2, rfl, rfl, by rw [hdocument], by rwa [hdocument]⟩
  · rintro ⟨keywords, source, registry, hkeywords, hsource, hparsed, hrun⟩
    rw [hkeywords, hsource, hparsed]
    exact Document.translated_eq_ok.mpr ⟨hrun, rfl⟩

/-- Everything that a run needs can be had: settings, the source text if one is asked for, and a
tree whose definitions are all well-formed. -/
def Provides (world : World) (options : Options) : Prop :=
  ∃ keywords document registry, world.keywords options = .ok keywords ∧
    (∀ path, options.source = some path → (world.text? path).isSome) ∧
    world.parsed options = .ok (document, registry) ∧
    ∀ d ∈ document.body.definitions keywords, d.WellFormed

theorem givenSource_isOk_iff :
    (∃ source, world.givenSource options = .ok source) ↔
      ∀ path, options.source = some path → (world.text? path).isSome := by
  unfold givenSource readText
  cases options.source with
  | none => simp
  | some path =>
    cases htext : world.text? path with
    | none => simp [htext, Except.map]
    | some text => simp [htext, Except.map]

theorem provides_iff : world.Provides options ↔ ∃ t, world.translation options = .ok t := by
  constructor
  · -- the definitions are all that can still go wrong once the tree is there
    rintro ⟨keywords, document, registry, hkeywords, hsource, hparsed, hwell⟩
    obtain ⟨source, hsource⟩ := givenSource_isOk_iff.mpr hsource
    obtain ⟨body, progress, hrun⟩ :=
      (Block.desugar_succeeds_iff keywords document.body { registry }).mpr hwell
    exact ⟨⟨document, body, progress⟩,
      translation_eq_ok.mpr ⟨keywords, source, registry, hkeywords, hsource, hparsed, hrun⟩⟩
  · rintro ⟨t, ht⟩
    obtain ⟨keywords, source, registry, hkeywords, hsource, hparsed, hrun⟩ :=
      translation_eq_ok.mp ht
    exact ⟨keywords, t.document, registry, hkeywords, givenSource_isOk_iff.mp ⟨source, hsource⟩,
      hparsed, (Block.desugar_succeeds_iff _ _ _).mp ⟨t.body, t.progress, hrun⟩⟩

end World

/-! ### Problems -/

/-- Of well-formed definitions, there is a report for each one that is recorded without a script. -/
theorem Definition.length_reportsFrom {ds : List Definition} (map : SourceMap)
    (hwell : ∀ d ∈ ds, d.WellFormed) :
    (reportsFrom map ds).length
      = (ds.filterMap summary?).countP fun record => !record.hasScript := by
  induction ds generalizing map with
  | nil => rfl
  | cons d ds ih =>
    obtain ⟨⟨nameLoc, name, inner⟩, hinner⟩ :=
      Option.isSome_iff_exists.mp (wellFormed_iff.mp (hwell d List.mem_cons_self))
    have hsummary := summary?_of_name? (name?_of_inner? hinner)
    rw [reportsFrom, List.length_append, ih _ (List.forall_mem_cons.mp hwell).2,
      List.filterMap_cons_some hsummary, List.countP_cons]
    cases d.problem? with
    | none => simp
    | some problem => simp [Nat.add_comm]

/-- The problems of a translation are the definitions without a script. -/
theorem World.length_reports {world : World} {options : Options} {t : Translation}
    (h : world.translation options = .ok t) :
    t.progress.reports.length = t.progress.records.countP fun record => !record.hasScript := by
  obtain ⟨keywords, -, registry, -, -, -, hrun⟩ := translation_eq_ok.mp h
  obtain ⟨calls, -, hlaw⟩ := Block.desugar_closed hrun
  have hwell := (Block.desugar_succeeds_iff _ _ _).mp ⟨t.body, t.progress, hrun⟩
  rw [hlaw.reports_eq, hlaw.records_eq, List.nil_append, List.nil_append]
  exact Definition.length_reportsFrom _ hwell

/-! ### Ways to end -/

/-- A result that is complete: the text that is written is that of the desugared tree, and the exit
code, the diagnostics and the statistics agree with the records. -/
structure RunResult.Complete (options : Options) (world : World) (session : Session) (text : String)
    (result : RunResult) : Prop where
  provides : world.Provides options
  translated : ∃ keywords document registry body progress,
    world.keywords options = .ok keywords ∧ world.parsed options = .ok (document, registry) ∧
      (document.body.desugar keywords).run { registry } = (.ok body, progress) ∧
      text = options.exportAs.write progress.registry.sourceMap document.source body ∧
      result.definitions = progress.records
  exitCode_eq_one : result.exitCode = 1 ↔ ∃ record ∈ result.definitions, record.hasScript = false
  exitCode_eq_zero : result.exitCode = 0 ↔ ∀ record ∈ result.definitions, record.hasScript = true
  diagnostics_eq : result.diagnostics.length
    = result.definitions.countP fun record => !record.hasScript
  statistics_definitions : session.statistics.definitions = result.definitions
  statistics_diagnostics : session.statistics.diagnostics = result.diagnostics.length

/-- The file that a path leads to holds a text, and nothing else has changed. -/
structure World.Wrote (world : World) (path text : String) (after : World) : Prop where
  read_eq : after.store.read? after.workingDirectory path = some text.toUTF8
  elsewhere : ∀ other, (∀ place, world.LeadsTo path place → ¬ world.LeadsTo other place) →
    after.store.read? after.workingDirectory other
      = world.store.read? world.workingDirectory other
  rest_eq : after = { world with store := after.store }

theorem World.wrote_of_write {world : World} {path text : String} {store : Store}
    (h : world.store.write world.workingDirectory path text.toUTF8 = .ok store) :
    world.Wrote path text { world with store } := by
  obtain ⟨hread, helsewhere⟩ := Store.read?_of_write h
  obtain ⟨-, place, hlocate, -⟩ := Store.write_eq_ok.mp h
  refine ⟨hread, fun other hother => helsewhere other fun heq => ?_, rfl⟩
  exact hother place hlocate (heq.trans hlocate)

/-- The program shows how a run went that delivered its result. -/
structure Execution.Shows (options : Options) (session : Session) (result : RunResult)
    (execution : Execution) : Prop where
  exitCode_eq : execution.exitCode = result.exitCode
  diagnostics_eq : execution.diagnostics = result.diagnostics
  statistics_eq : execution.statistics
    = if options.statistics then some session.statistics else none

/-- The ways in which a run of the program can end in a world. Of the two worlds that follow, the
first is that at the end of the export, and the second that at the end of the program. The last
argument is the text that is delivered. -/
inductive Outcome (options : Options) (world : World) :
    Except RunError RunResult → Session → World → Execution → World → Option String → Prop
  /-- Something that the run needs cannot be had. Then the result has not been written, and would
  not have been with any other writer. -/
  | aborted {error : RunError} {session : Session} {execution : Execution}
      (lacks : ¬ world.Provides options)
      (unwritten : ∀ writer, Run.Ends world (Run.produce World.host options writer) {}
        (.error error) session world)
      (rendered_eq : session.rendered = "") (exitCode_eq : execution.exitCode = 2) :
      Outcome options world (.error error) session world execution world none
  /-- The result is printed. -/
  | printed {result : RunResult} {session : Session} {execution : Execution} {text : String}
      (complete : result.Complete options world session text) (asked : options.output = none)
      (shows : execution.Shows options session result) :
      Outcome options world (.ok result) session { world with output := world.output ++ text }
        execution { world with output := world.output ++ text } (some text)
  /-- The result is collected and then written to a file. -/
  | written {result : RunResult} {session : Session} {execution : Execution} {path text : String}
      {after : World} (complete : result.Complete options world session text)
      (asked : options.output = some path) (rendered_eq : session.rendered = text)
      (wrote : world.Wrote path text after) (shows : execution.Shows options session result) :
      Outcome options world (.ok result) session world execution after (some text)
  /-- The result is collected, but cannot be written to the file that is named for it. -/
  | refused {result : RunResult} {session : Session} {execution : Execution} {path text : String}
      {error : PathError} (complete : result.Complete options world session text)
      (asked : options.output = some path) (rendered_eq : session.rendered = text)
      (failed : world.store.write world.workingDirectory path text.toUTF8 = .error error)
      (exitCode_eq : execution.exitCode = 2) :
      Outcome options world (.ok result) session world execution world none

theorem RunResult.exitCode_eq_zero_iff (result : RunResult) :
    result.exitCode = 0 ↔ result.diagnostics.length = 0 := by
  unfold exitCode
  cases result.diagnostics <;> simp

theorem RunResult.exitCode_eq_one_iff (result : RunResult) :
    result.exitCode = 1 ↔ 0 < result.diagnostics.length := by
  unfold exitCode
  cases result.diagnostics <;> simp

theorem World.complete_result {world : World} {options : Options} {t : Translation}
    {session : Session} (h : world.translation options = .ok t) (haccounts : session.Accounts t) :
    (t.result session.source).Complete options world session (t.text options) := by
  have hlength : (t.result session.source).diagnostics.length = t.progress.reports.length :=
    List.length_map _
  have hcount := hlength.trans (length_reports h)
  obtain ⟨keywords, -, registry, hkeywords, -, hparsed, hrun⟩ := translation_eq_ok.mp h
  constructor
  case provides => exact provides_iff.mpr ⟨t, h⟩
  case translated =>
    exact ⟨keywords, t.document, registry, t.body, t.progress, hkeywords, hparsed, hrun, rfl, rfl⟩
  case exitCode_eq_one =>
    rw [RunResult.exitCode_eq_one_iff, hcount, List.countP_pos_iff]
    simp only [Bool.not_eq_true']
    rfl
  case exitCode_eq_zero =>
    rw [RunResult.exitCode_eq_zero_iff, hcount, List.countP_eq_zero]
    simp only [Bool.not_eq_true', Bool.not_eq_false]
    rfl
  case diagnostics_eq => exact hcount
  case statistics_definitions => exact haccounts.definitions_eq
  case statistics_diagnostics => exact haccounts.diagnostics_eq.trans hlength.symm

/-- A run that is to print, and delivers its result, has printed what it delivers. -/
theorem Outcome.output_eq {options : Options} {world exported after : World}
    {result : Except RunError RunResult} {session : Session} {execution : Execution}
    {delivered : Option String}
    (h : Outcome options world result session exported execution after delivered)
    (hasked : options.output = none) (hexit : execution.exitCode ≠ 2) :
    ∃ text, delivered = some text ∧ after.output = world.output ++ text := by
  cases h with
  | aborted _ _ _ hcode => exact absurd hcode hexit
  | printed => exact ⟨_, rfl, rfl⟩
  | written _ hpath =>
    rw [hasked] at hpath
    cases hpath
  | refused _ _ _ _ hcode => exact absurd hcode hexit

/-! ### Delivery -/

namespace World

/-- Whether a text can go where the result of a run is to go. -/
def accepts (world : World) (options : Options) (text : String) : Bool :=
  match options.output with
  | none => true
  | some path => (world.store.write world.workingDirectory path text.toUTF8).toBool

/-- The translation that a run delivers, if it delivers one. -/
def delivered? (world : World) (options : Options) : Option Translation :=
  match world.translation options with
  | .error _ => none
  | .ok t => if world.accepts options (t.text options) then some t else none

variable {world : World} {options : Options}

theorem accepts_of_none (h : options.output = none) (text : String) :
    world.accepts options text = true := by
  unfold accepts
  rw [h]

theorem accepts_of_some {path : String} (world : World) (h : options.output = some path)
    (text : String) : world.accepts options text
      = (world.store.write world.workingDirectory path text.toUTF8).toBool := by
  unfold accepts
  rw [h]

theorem delivered?_of_error {error : RunError} (h : world.translation options = .error error) :
    world.delivered? options = none := by
  unfold delivered?
  rw [h]

theorem delivered?_of_accepts {t : Translation} (h : world.translation options = .ok t)
    (haccepts : world.accepts options (t.text options) = true) :
    world.delivered? options = some t := by
  unfold delivered?
  rw [h]
  exact if_pos haccepts

theorem delivered?_of_not_accepts {t : Translation} (h : world.translation options = .ok t)
    (haccepts : world.accepts options (t.text options) = false) :
    world.delivered? options = none := by
  unfold delivered?
  rw [h]
  exact if_neg (Bool.eq_false_iff.mp haccepts)

/-- The exit code of a run. -/
def exitCode (world : World) (options : Options) : Nat :=
  match world.delivered? options with
  | none => 2
  | some t => if t.progress.reports.isEmpty then 0 else 1

end World

namespace Run

variable {world after : World} {options : Options} {session : Session}

theorem run_writeFile {path text : String} {store : Store}
    (h : world.store.write world.workingDirectory path text.toUTF8 = .ok store) :
    (World.host.writeFile path text).run world = (.ok (), { world with store }) := by
  have hget : (get : StateM World World).run world = (world, world) := rfl
  refine (World.run_bind_of hget).trans ?_
  rw [h]
  rfl

theorem run_writeFile_of_error {path text : String} {error : PathError}
    (h : world.store.write world.workingDirectory path text.toUTF8 = .error error) :
    (World.host.writeFile path text).run world = (.error (.path error), world) := by
  have hget : (get : StateM World World).run world = (world, world) := rfl
  refine (World.run_bind_of hget).trans ?_
  rw [h]
  rfl

theorem ends_writer_of_none (houtput : options.output = none) (text : String) :
    Ends world (writer World.host options text) session (.ok ()) session
      { world with output := world.output ++ text } := by
  have hprint : (World.host.print text).run world
      = (.ok (), { world with output := world.output ++ text }) := rfl
  unfold writer
  rw [houtput]
  exact (Ends.of_ask hprint).bind (.of_pure ())

theorem ends_writer_of_some {path : String} (houtput : options.output = some path)
    (text : String) :
    Ends world (writer World.host options text) session (.ok ())
      { session with rendered := session.rendered ++ text } world := by
  unfold writer
  rw [houtput]
  exact .of_modify _

theorem perform_printed {result : RunResult}
    (h : Ends world (produce World.host options (writer World.host options)) {} (.ok result) session
      after)
    (houtput : options.output = none) :
    Ends world (perform World.host options) {} (.ok result) session after := by
  unfold perform
  refine h.bind ?_
  rw [houtput]
  exact .of_pure result

theorem perform_written {result : RunResult} {path : String} {store : Store}
    (h : Ends world (produce World.host options (writer World.host options)) {} (.ok result) session
      world)
    (houtput : options.output = some path)
    (hwrite : world.store.write world.workingDirectory path session.rendered.toUTF8 = .ok store) :
    Ends world (perform World.host options) {} (.ok result) session { world with store } := by
  unfold perform
  refine h.bind ?_
  rw [houtput]
  exact Ends.bind .of_get (Ends.bind (.of_ask (run_writeFile hwrite)) (.of_pure result))

theorem perform_refused {result : RunResult} {path : String} {error : PathError}
    (h : Ends world (produce World.host options (writer World.host options)) {} (.ok result) session
      world)
    (houtput : options.output = some path)
    (hwrite : world.store.write world.workingDirectory path session.rendered.toUTF8
      = .error error) :
    Ends world (perform World.host options) {} (.error (.host (.path error))) session world := by
  unfold perform
  refine h.bind ?_
  rw [houtput]
  exact Ends.bind .of_get (Ends.bind (.of_ask (run_writeFile_of_error hwrite)) (.of_throw _))

end Run

namespace Execution

variable {world after : World} {options : Options} {session : Session}

theorem run_ofOptions_of_ok {result : RunResult}
    (h : Run.Ends world (Run.perform World.host options) {} (.ok result) session after) :
    ∃ execution, (ofOptions World.host options).run world = (execution, after) ∧
      execution.Shows options session result :=
  ⟨_, World.run_bind_of h, ⟨rfl, rfl, rfl⟩⟩

theorem run_ofOptions_of_error {error : RunError}
    (h : Run.Ends world (Run.perform World.host options) {} (.error error) session after) :
    ∃ execution, (ofOptions World.host options).run world = (execution, after) ∧
      execution.exitCode = 2 :=
  ⟨_, World.run_bind_of h, rfl⟩

end Execution

/-- A run of the program in a world: `result` and the world `exported` are what there is at the end
of the export, and `execution` and the world `after` are what the program ends with. The session is
the same. -/
structure World.Runs (world : World) (options : Options) (result : Except RunError RunResult)
    (session : Session) (exported : World) (execution : Execution) (after : World) : Prop where
  produces : Run.Ends world
    (Run.produce World.host options (Run.writer World.host options)) {} result session exported
  performs : ∃ performed, Run.Ends world (Run.perform World.host options) {} performed session after
  executes : (Execution.ofOptions World.host options).run world = (execution, after)

namespace World

variable {world : World} {options : Options} {t : Translation}

/-- Without a translation, the run does not come to the writing. -/
theorem exists_aborted {error : RunError} (h : world.translation options = .error error) :
    ∃ session execution, world.Runs options (.error error) session world execution world ∧
      Outcome options world (.error error) session world execution world none ∧
      execution.exitCode = 2 := by
  have hwriting := Run.endsWriting_produce world options
  rw [h] at hwriting
  obtain ⟨hrendered, hproduce⟩ := hwriting
  have hperform : Run.Ends world (Run.perform host options) {} (.error error) _ world :=
    (hproduce _).bind_error
  obtain ⟨execution, hexecute, hexit⟩ := Execution.run_ofOptions_of_error hperform
  have hlacks : ¬ world.Provides options := by
    rw [provides_iff, h]
    rintro ⟨t, ht⟩
    cases ht
  exact ⟨_, execution, ⟨hproduce _, ⟨_, hperform⟩, hexecute⟩,
    .aborted hlacks hproduce hrendered hexit, hexit⟩

theorem exists_printed (h : world.translation options = .ok t) (hasked : options.output = none) :
    ∃ session execution after, world.Runs options (.ok (t.result session.source)) session after
        execution after ∧
      Outcome options world (.ok (t.result session.source)) session after execution after
        (some (t.text options)) ∧
      execution.exitCode = (t.result session.source).exitCode := by
  have hwriting := Run.endsWriting_produce world options
  rw [h] at hwriting
  obtain - | ⟨-, hproduce⟩ := hwriting
  obtain ⟨session, hproduce, -, haccounts⟩ := hproduce _ _ _ (Run.ends_writer_of_none hasked _)
  have hperform := Run.perform_printed hproduce hasked
  obtain ⟨execution, hexecute, hshows⟩ := Execution.run_ofOptions_of_ok hperform
  exact ⟨session, execution, _, ⟨hproduce, ⟨_, hperform⟩, hexecute⟩,
    .printed (complete_result h haccounts) hasked hshows, hshows.exitCode_eq⟩

/-- For a file, the text is collected, and nothing else. -/
theorem exists_collected {path : String} (h : world.translation options = .ok t)
    (hasked : options.output = some path) :
    ∃ session, Run.Ends world (Run.produce host options (Run.writer host options)) {}
        (.ok (t.result session.source)) session world ∧
      session.rendered = t.text options ∧ session.Accounts t := by
  have hwriting := Run.endsWriting_produce world options
  rw [h] at hwriting
  obtain - | ⟨hready, hproduce⟩ := hwriting
  obtain ⟨session, hproduce, hrendered, haccounts⟩ :=
    hproduce _ _ _ (Run.ends_writer_of_some hasked _)
  refine ⟨session, hproduce, ?_, haccounts⟩
  rw [hrendered, hready, String.empty_append]

theorem exists_written {path : String} {store : Store} (h : world.translation options = .ok t)
    (hasked : options.output = some path)
    (hwrite : world.store.write world.workingDirectory path (t.text options).toUTF8 = .ok store) :
    ∃ session execution after, world.Runs options (.ok (t.result session.source)) session world
        execution after ∧
      Outcome options world (.ok (t.result session.source)) session world execution after
        (some (t.text options)) ∧
      execution.exitCode = (t.result session.source).exitCode := by
  obtain ⟨session, hproduce, hrendered, haccounts⟩ := exists_collected h hasked
  have hperform := Run.perform_written hproduce hasked (by rw [hrendered]; exact hwrite)
  obtain ⟨execution, hexecute, hshows⟩ := Execution.run_ofOptions_of_ok hperform
  exact ⟨session, execution, _, ⟨hproduce, ⟨_, hperform⟩, hexecute⟩,
    .written (complete_result h haccounts) hasked hrendered (wrote_of_write hwrite) hshows,
    hshows.exitCode_eq⟩

theorem exists_refused {path : String} {error : PathError} (h : world.translation options = .ok t)
    (hasked : options.output = some path)
    (hwrite : world.store.write world.workingDirectory path (t.text options).toUTF8
      = .error error) :
    ∃ session execution, world.Runs options (.ok (t.result session.source)) session world execution
        world ∧
      Outcome options world (.ok (t.result session.source)) session world execution world none ∧
      execution.exitCode = 2 := by
  obtain ⟨session, hproduce, hrendered, haccounts⟩ := exists_collected h hasked
  have hperform := Run.perform_refused hproduce hasked (by rw [hrendered]; exact hwrite)
  obtain ⟨execution, hexecute, hexit⟩ := Execution.run_ofOptions_of_error hperform
  exact ⟨session, execution, ⟨hproduce, ⟨_, hperform⟩, hexecute⟩,
    .refused (complete_result h haccounts) hasked hrendered hwrite hexit, hexit⟩

/-- **How a run ends**, in terms of what is translated and whether it can be written. -/
theorem exists_outcome (world : World) (options : Options) :
    ∃ result session exported execution after,
      world.Runs options result session exported execution after ∧
      Outcome options world result session exported execution after
        ((world.delivered? options).map (·.text options)) ∧
      execution.exitCode = world.exitCode options ∧
      result.map (·.definitions) = (world.translation options).map (·.progress.records) := by
  unfold exitCode
  cases htranslation : world.translation options with
  | error error =>
    rw [delivered?_of_error htranslation]
    obtain ⟨session, execution, hruns, houtcome, hexit⟩ := exists_aborted htranslation
    exact ⟨_, session, world, execution, world, hruns, houtcome, hexit, rfl⟩
  | ok t =>
    have hcode : ∀ source, (t.result source).exitCode
        = if t.progress.reports.isEmpty then 0 else 1 := by
      intro source
      unfold RunResult.exitCode Translation.result
      rw [List.isEmpty_map]
    cases hasked : options.output with
    | none =>
      rw [delivered?_of_accepts htranslation (accepts_of_none hasked _)]
      obtain ⟨session, execution, after, hruns, houtcome, hexit⟩ :=
        exists_printed htranslation hasked
      exact ⟨_, session, after, execution, after, hruns, houtcome, hexit.trans (hcode _), rfl⟩
    | some path =>
      have haccepts := world.accepts_of_some hasked (t.text options)
      cases hwrite : world.store.write world.workingDirectory path (t.text options).toUTF8 with
      | error error =>
        rw [hwrite] at haccepts
        rw [delivered?_of_not_accepts htranslation haccepts]
        obtain ⟨session, execution, hruns, houtcome, hexit⟩ :=
          exists_refused htranslation hasked hwrite
        exact ⟨_, session, world, execution, world, hruns, houtcome, hexit, rfl⟩
      | ok store =>
        rw [hwrite] at haccepts
        rw [delivered?_of_accepts htranslation haccepts]
        obtain ⟨session, execution, after, hruns, houtcome, hexit⟩ :=
          exists_written htranslation hasked hwrite
        exact ⟨_, session, world, execution, after, hruns, houtcome, hexit.trans (hcode _), rfl⟩

end World

/-! ### The source text -/

/-- Two worlds that differ only in a file that is neither the tree nor a settings file of a run.
Either it can be read in both, or it is not the source text that is asked for; then it may also be
there in one world only. -/
structure DifferInSource (options : Options) (place : Place) (world other : World) : Prop where
  same : world.SameBut place other
  tree : options.readsInput = false → ¬ world.LeadsTo options.tree place
  settings : world.SettingsAvoid options place
  settings_other : other.SettingsAvoid options place
  readable : ∀ path, options.source = some path → world.LeadsTo path place →
    (world.text? path).isSome ∧ (other.text? path).isSome

namespace DifferInSource

variable {options : Options} {place : Place} {world other : World}

theorem readText_eq (h : DifferInSource options place world other) {path : String}
    (hpath : ¬ world.LeadsTo path place) : world.readText path = other.readText path := by
  unfold World.readText
  rw [h.same.text?_eq hpath]

theorem parsed_eq (h : DifferInSource options place world other) :
    world.parsed options = other.parsed options := by
  have htext : world.treeText options = other.treeText options := by
    unfold World.treeText
    rw [h.same.input_eq]
    cases hinput : options.readsInput with
    | true => rfl
    | false => exact h.readText_eq (h.tree hinput)
  unfold World.parsed
  rw [htext]

/-- The source text that is asked for can be had in both worlds, or in neither. -/
theorem givenSource_eq (h : DifferInSource options place world other) :
    (world.givenSource options).map (fun _ => ())
      = (other.givenSource options).map fun _ => () := by
  unfold World.givenSource
  cases hsource : options.source with
  | none => rfl
  | some path =>
    simp only
    by_cases hpath : world.LeadsTo path place
    · obtain ⟨hworld, hother⟩ := h.readable path hsource hpath
      obtain ⟨text, htext⟩ := Option.isSome_iff_exists.mp hworld
      obtain ⟨text', htext'⟩ := Option.isSome_iff_exists.mp hother
      rw [World.readText_of_text? htext, World.readText_of_text? htext']
      rfl
    · rw [h.readText_eq hpath]

/-- **The translation does not depend on the source text.** -/
theorem translation_eq (h : DifferInSource options place world other) :
    world.translation options = other.translation options := by
  have hsource := h.givenSource_eq
  unfold World.translation
  rw [h.same.keywords_eq h.settings h.settings_other, h.parsed_eq]
  refine congrArg _ (funext fun keywords => ?_)
  -- what the source text says is not used, only whether it is there
  cases hworld : world.givenSource options with
  | error error =>
    cases hother : other.givenSource options with
    | error error' =>
      rw [hworld, hother] at hsource
      cases hsource
      rfl
    | ok source => rw [hworld, hother] at hsource; cases hsource
  | ok source =>
    cases hother : other.givenSource options with
    | error error => rw [hworld, hother] at hsource; cases hsource
    | ok source' => rfl

theorem accepts_eq (h : DifferInSource options place world other) (text : String) :
    world.accepts options text = other.accepts options text := by
  -- stated for both directions
  have hwrites : ∀ {a b : World} {path : String} {store : Store}, a.SameBut place b →
      a.store.write a.workingDirectory path text.toUTF8 = .ok store →
      (b.store.write b.workingDirectory path text.toUTF8).toBool = true := by
    intro a b path store hsame hwrite
    obtain ⟨store', hwrite'⟩ := hsame.store.write hwrite
    rw [← hsame.workingDirectory_eq, hwrite']
    rfl
  unfold World.accepts
  cases options.output with
  | none => rfl
  | some path =>
    simp only
    cases hworld : world.store.write world.workingDirectory path text.toUTF8 with
    | ok store => exact (hwrites h.same hworld).symm
    | error error =>
      cases hother : other.store.write other.workingDirectory path text.toUTF8 with
      | error error' => rfl
      | ok store =>
        have hwrite := hwrites h.same.symm hother
        rw [hworld] at hwrite
        cases hwrite

theorem delivered?_eq (h : DifferInSource options place world other) :
    world.delivered? options = other.delivered? options := by
  unfold World.delivered?
  rw [h.translation_eq]
  cases other.translation options with
  | error error => rfl
  | ok t => simp only [h.accepts_eq]

end DifferInSource

theorem Execution.exitCode_ofOptions (world : World) (options : Options) :
    ((Execution.ofOptions World.host options).run world).1.exitCode = world.exitCode options := by
  obtain ⟨_, _, _, execution, after, hruns, -, hexit, -⟩ := world.exists_outcome options
  rw [hruns.executes]
  exact hexit

/-! ### All or nothing -/

/-- **All or nothing.** A run of the program ends in one of the ways of `Outcome`: with its result
delivered as a whole, or with nothing delivered, that is nothing printed and all files as they were.
In a world that differs only in a source text, the same is delivered, with the same records and the
same exit code. -/
theorem Execution.delivers_all_or_nothing (options : Options) (world : World) :
    ∃ result session exported execution after delivered,
      world.Runs options result session exported execution after ∧
      Outcome options world result session exported execution after delivered ∧
      ∀ place other, DifferInSource options place world other →
        ∃ result' session' exported' execution' after',
          other.Runs options result' session' exported' execution' after' ∧
          Outcome options other result' session' exported' execution' after' delivered ∧
          execution'.exitCode = execution.exitCode ∧
          result'.map (·.definitions) = result.map (·.definitions) := by
  obtain ⟨result, session, exported, execution, after, hruns, houtcome, hexit, hrecords⟩ :=
    world.exists_outcome options
  refine ⟨result, session, exported, execution, after, _, hruns, houtcome,
    fun place other hdiffer => ?_⟩
  obtain ⟨result', session', exported', execution', after', hruns', houtcome', hexit',
    hrecords'⟩ := other.exists_outcome options
  refine ⟨result', session', exported', execution', after', hruns', ?_, ?_, ?_⟩
  · rwa [hdiffer.delivered?_eq]
  · rw [hexit', hexit]
    unfold World.exitCode
    rw [hdiffer.delivered?_eq]
  · rw [hrecords', hrecords, hdiffer.translation_eq]

/-- A tree with a definition that has no body. -/
def Block.sampleBodiless : Block :=
  ⟨Scopes.root, [.plain .unknown (.call .unknown none "process" [.call .unknown none "f" []])]⟩

/-- Its document, which names a source text. -/
def Json.Value.sampleNamed : Json.Value :=
  Interchange.writeDocument .empty (some "main.nf") Block.sampleBodiless

/-- A world with the tree alone. -/
def World.sampleNamed : World where
  store := ⟨[(["tree.json"], .file (Json.write .sampleNamed).toUTF8)]⟩

/-- The world with the source text, too. -/
def World.sampleSourced : World where
  store := World.sampleNamed.store.insert ["main.nf"] (.file "process f\n".toUTF8)

/-- The options of a run in these worlds. -/
def Options.sampleSource (source : Option String) : Options where
  batch := true
  source := source
  tree := "tree.json"

theorem Options.readsInput_sampleSource (source : Option String) :
    (sampleSource source).readsInput = false := rfl

namespace World

theorem sameBut_sampleSourced : sampleSourced.SameBut ["main.nf"] sampleNamed := by
  have hnone : sampleNamed.store.get? ["main.nf"] = none := rfl
  refine ⟨(Store.sameBut_insert ?_ _).symm, rfl, rfl, rfl, rfl⟩
  rw [hnone]
  intro h
  cases h

theorem leadsTo_sampleTree : sampleSourced.LeadsTo "tree.json" ["tree.json"] := rfl

theorem leadsTo_sampleSource : sampleSourced.LeadsTo "main.nf" ["main.nf"] := rfl

theorem not_leadsTo_sampleTree : ¬ sampleSourced.LeadsTo "tree.json" ["main.nf"] := by
  intro h
  have heq : ["tree.json"] = ["main.nf"] := Except.ok.inj (leadsTo_sampleTree.symm.trans h)
  exact absurd heq (by decide)

theorem settingsAvoid_sample (world : World) (source : Option String) (place : Place) :
    world.SettingsAvoid (.sampleSource source) place := by
  intro path h
  cases h

theorem exists_translation_sample {source : Option SourceText} {path : Option String}
    (h : sampleSourced.givenSource (.sampleSource path) = .ok source) :
    ∃ t, sampleSourced.translation (.sampleSource path) = .ok t ∧
      t.document.source = some "main.nf" ∧ t.progress.reports.length = 1 := by
  have htext : sampleSourced.treeText (.sampleSource path) = .ok (Json.write .sampleNamed) := by
    unfold treeText
    rw [Options.readsInput_sampleSource, if_neg Bool.false_ne_true]
    exact readText_of_text? (text?_of_leadsTo leadsTo_sampleTree rfl)
  -- the tree is read from its own document
  have hlossless : Block.sampleBodiless.Everywhere Expr.Lossless :=
    List.forall_mem_singleton.mpr (.node trivial
      (List.forall_mem_singleton.mpr (.node trivial (List.forall_mem_nil _))))
  have hvalue : Json.Value.sampleNamed.Everywhere Json.Value.Lossless :=
    Interchange.lossless_writeDocument hlossless
  have hread : Json.read (Json.write .sampleNamed) = .ok .sampleNamed :=
    Json.read_write_of_depth_le hvalue.distinctKeys hvalue.integral (by decide)
  obtain ⟨document, registry, hparsed, hname, body, progress, hrun, hreports⟩ :
      ∃ document registry, (Interchange.documentOf .sampleNamed).run {}
          = .ok (document, registry) ∧ document.source = some "main.nf" ∧
        ∃ body progress, (document.body.desugar (Keywords.default.insertAll [])).run { registry }
          = (.ok body, progress) ∧ progress.reports.length = 1 :=
    ⟨_, _, rfl, rfl, _, _, rfl, rfl⟩
  refine ⟨⟨document, body, progress⟩, translation_eq_ok.mpr
    ⟨_, source, registry, rfl, h, ?_, hrun⟩, hname, hreports⟩
  rw [parsed_of_treeText htext]
  refine congrArg (Except.mapError RunError.tree) (Eq.trans ?_ hparsed)
  exact congrArg (StateT.run · {}) (Interchange.parseDocument_of_read hread)

theorem exitCode_sampleSourced {source : Option SourceText} (path : Option String)
    (h : sampleSourced.givenSource (.sampleSource path) = .ok source) :
    sampleSourced.exitCode (.sampleSource path) = 1 := by
  obtain ⟨t, ht, -, hreports⟩ := exists_translation_sample h
  have hproblems : t.progress.reports.isEmpty = false := by
    cases hempty : t.progress.reports with
    | nil => rw [hempty] at hreports; cases hreports
    | cons report reports => rfl
  unfold exitCode
  rw [delivered?_of_accepts ht (accepts_of_none rfl _)]
  simp only [hproblems]
  rfl

end World

/-- Without the source text that the tree names, the run ends as with it, and prints the same. -/
theorem Execution.delivers_all_or_nothing_unsourced :
    DifferInSource (.sampleSource none) ["main.nf"] .sampleSourced .sampleNamed ∧
      ∃ execution after execution' after',
        (Execution.ofOptions World.host (.sampleSource none)).run .sampleSourced
          = (execution, after) ∧
        (Execution.ofOptions World.host (.sampleSource none)).run .sampleNamed
          = (execution', after') ∧
        execution.exitCode = 1 ∧ execution'.exitCode = 1 ∧ after.output = after'.output := by
  have hdiffer : DifferInSource (.sampleSource none) ["main.nf"] .sampleSourced .sampleNamed := {
    same := World.sameBut_sampleSourced
    tree := fun _ => World.not_leadsTo_sampleTree
    settings := World.settingsAvoid_sample _ _ _
    settings_other := World.settingsAvoid_sample _ _ _
    readable := fun _ h => by cases h }
  have hone : World.sampleSourced.exitCode (.sampleSource none) = 1 := by
    exact World.exitCode_sampleSourced none rfl
  obtain ⟨_, _, _, execution, after, _, hruns, houtcome, hother⟩ :=
    Execution.delivers_all_or_nothing (.sampleSource none) .sampleSourced
  obtain ⟨_, _, _, execution', after', hruns', houtcome', hexit, -⟩ := hother _ _ hdiffer
  have hexecution : execution.exitCode = 1 := by
    rw [← hone, ← Execution.exitCode_ofOptions, hruns.executes]
  have hexecution' := hexit.trans hexecution
  obtain ⟨text, rfl, hprinted⟩ := houtcome.output_eq rfl (by rw [hexecution]; decide)
  obtain ⟨text', htext, hprinted'⟩ := houtcome'.output_eq rfl (by rw [hexecution']; decide)
  cases htext
  refine ⟨hdiffer, execution, after, execution', after', hruns.executes, hruns'.executes,
    hexecution, hexecution', ?_⟩
  rw [hprinted, hprinted']
  rfl

/-- **A source text that is asked for has to be there**, also if the tree names it. -/
theorem Execution.requested_source_must_exist :
    ∃ options place world other, World.SameBut place world other ∧
      other.store.get? place = none ∧ ¬ world.LeadsTo options.tree place ∧
      world.SettingsAvoid options place ∧ other.SettingsAvoid options place ∧
      (∃ document registry name, world.parsed options = .ok (document, registry) ∧
        document.source = some name ∧
        world.LeadsTo (join ((parent? options.tree).getD "") name) place) ∧
      ((Execution.ofOptions World.host options).run world).1.exitCode = 1 ∧
      ((Execution.ofOptions World.host options).run other).1.exitCode = 2 := by
  have hsource : World.sampleSourced.givenSource (.sampleSource (some "main.nf"))
      = .ok (some ⟨"main.nf", "process f\n"⟩) := by
    have hread := World.readText_of_text? (World.text?_of_leadsTo World.leadsTo_sampleSource rfl)
    exact congrArg (Except.map fun content => some (SourceText.mk "main.nf" content)) hread
  have hmissing : World.sampleNamed.exitCode (.sampleSource (some "main.nf")) = 2 := by
    have hgiven : World.sampleNamed.givenSource (.sampleSource (some "main.nf"))
        = .error (.unreadable "main.nf") := rfl
    unfold World.exitCode World.delivered? World.translation
    rw [hgiven]
    rfl
  obtain ⟨t, ht, hname, -⟩ := World.exists_translation_sample hsource
  obtain ⟨-, -, registry, -, -, hparsed, -⟩ := World.translation_eq_ok.mp ht
  refine ⟨.sampleSource (some "main.nf"), ["main.nf"], .sampleSourced, .sampleNamed,
    World.sameBut_sampleSourced, rfl, World.not_leadsTo_sampleTree,
    World.settingsAvoid_sample _ _ _, World.settingsAvoid_sample _ _ _,
    ⟨t.document, registry, "main.nf", hparsed, hname, ?_⟩, ?_, ?_⟩
  · exact World.leadsTo_sampleSource
  · rw [Execution.exitCode_ofOptions, World.exitCode_sampleSourced _ hsource]
  · rw [Execution.exitCode_ofOptions, hmissing]

end FlowDesugar
