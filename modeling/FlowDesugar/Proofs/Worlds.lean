import FlowDesugar.Settings
import FlowDesugar.Proofs.Stores

/-!
# Settings in a world

In a world everything that is asked of the host is answered by a value, and only writing and
printing change the world. `World.settingsFile` and `World.keywords` are the settings file that
applies and the keywords of a run as functions of the world; `World.run_load` says that this is what
loading the settings comes to.

Two worlds are the same but for one file if their stores are (`World.SameBut`). Such a file can
change the settings only if it is the settings file of one of the two worlds
(`World.SameBut.keywords_eq`).
-/

namespace FlowDesugar.World

/-! ### What a world answers -/

/-- The text of the file that a path leads to, if it can be read and is UTF-8. -/
def text? (world : World) (path : String) : Option String :=
  (world.store.read? world.workingDirectory path).bind String.fromUTF8?

/-- Whether a path leads to a file. -/
def isFile (world : World) (path : String) : Bool :=
  world.store.isFile world.workingDirectory path

/-- The paths at which a settings file is looked for, in order. -/
def settingsPaths (world : World) : List String :=
  (Files.ancestors ("/" ++ "/".intercalate world.workingDirectory)).map
      (Files.join · Settings.fileName)
    ++ world.homeDirectory.toList.map (Files.join · Settings.userFileName)

/-- The settings file that applies. -/
def settingsFile (world : World) (options : Options) : Option String :=
  match options.config with
  | some path => some path
  | none => if options.batch then none else world.settingsPaths.find? world.isFile

/-- The keywords that the file at a path sets, or the default ones if it sets none. -/
def keywordsAt (world : World) (path : String) : Except RunError Keywords :=
  match world.text? path with
  | none => .error (.unreadable path)
  | some text =>
    match Settings.keywordsIn text with
    | .error fault => .error (.settings path fault)
    | .ok none => .ok .default
    | .ok (some words) => .ok ⟨words⟩

/-- The keywords of the settings file that applies, or the default ones if there is none. -/
def settingsKeywords (world : World) (options : Options) : Except RunError Keywords :=
  match world.settingsFile options with
  | none => .ok .default
  | some path => world.keywordsAt path

/-- The keywords of a run. -/
def keywords (world : World) (options : Options) : Except RunError Keywords :=
  (world.settingsKeywords options).map (·.insertAll options.keywords)

/-! ### Loading the settings -/

theorem run_bind_of {α β : Type} {x : StateM World α} {f : α → StateM World β}
    {world after : World} {a : α} (h : x.run world = (a, after)) :
    (x >>= f).run world = (f a).run after := by
  rw [StateT.run_bind, h]
  rfl

theorem run_isFile (world : World) (path : String) :
    (host.isFile path).run world = (world.isFile path, world) := rfl

theorem run_readText (world : World) (path : String) :
    (host.readText path).run world = (world.text? path, world) := rfl

theorem run_firstFile (world : World) (paths : List String) :
    (Settings.firstFile host paths).run world = (paths.find? world.isFile, world) := by
  induction paths with
  | nil => rfl
  | cons path paths ih =>
    rw [Settings.firstFile, run_bind_of (run_isFile world path), List.find?_cons]
    cases world.isFile path with
    | true => rfl
    | false => exact ih

theorem run_userFile (world : World) :
    (Settings.userFile host).run world
      = ((world.homeDirectory.toList.map (Files.join · Settings.userFileName)).find? world.isFile,
        world) := by
  have hhome : host.homeDirectory.run world = (world.homeDirectory, world) := rfl
  rw [Settings.userFile, run_bind_of hhome]
  cases world.homeDirectory with
  | none => rfl
  | some home => exact run_firstFile world _

theorem run_chosenFile (world : World) (options : Options) :
    (Settings.chosenFile host options).run world = (world.settingsFile options, world) := by
  unfold Settings.chosenFile settingsFile
  cases options.config with
  | some path => rfl
  | none =>
    cases options.batch with
    | true => rfl
    | false =>
      have hdirectory : host.workingDirectory.run world
          = (some ("/" ++ "/".intercalate world.workingDirectory), world) := rfl
      simp only [Bool.false_eq_true, if_false, settingsPaths, List.find?_append]
      rw [run_bind_of hdirectory]
      refine (run_bind_of (x := Settings.nearest host _) (run_firstFile world _)).trans ?_
      cases List.find? world.isFile _ with
      | some path => rfl
      | none => exact run_userFile world

theorem run_readFile (world : World) (path : String) :
    (Settings.readFile host path).run.run world = (world.keywordsAt path, world) := by
  have htext : (ExceptT.lift (host.readText path) : ExceptT RunError (StateM World) _).run.run world
      = (.ok (world.text? path), world) := rfl
  unfold Settings.readFile keywordsAt
  rw [ExceptT.run_bind, run_bind_of htext]
  cases world.text? path with
  | none => rfl
  | some text =>
    cases hread : Settings.keywordsIn text with
    | error fault => simp only [hread]; rfl
    | ok words => cases words <;> simp only [hread] <;> rfl

/-- **The settings of a run in a world.** -/
theorem run_load (world : World) (options : Options) :
    (Settings.load host options).run.run world = (world.keywords options, world) := by
  have hfile : (ExceptT.lift (Settings.chosenFile host options)
      : ExceptT RunError (StateM World) _).run.run world
        = (.ok (world.settingsFile options), world) := by
    rw [ExceptT.run_lift, StateT.run_map, run_chosenFile]
    rfl
  unfold Settings.load keywords settingsKeywords
  rw [ExceptT.run_bind, run_bind_of hfile]
  cases world.settingsFile options with
  | none => rfl
  | some path =>
    simp only
    rw [ExceptT.run_bind, run_bind_of (run_readFile world path)]
    cases world.keywordsAt path <;> rfl

/-! ### Two worlds -/

/-- A path leads to a place, where there may be nothing. -/
def LeadsTo (world : World) (path : String) (place : Files.Place) : Prop :=
  world.store.locate world.workingDirectory path = .ok place

/-- No settings are taken from the file at a place. -/
def SettingsAvoid (world : World) (options : Options) (place : Files.Place) : Prop :=
  ∀ path, world.settingsFile options = some path → ¬ world.LeadsTo path place

/-- The worlds are the same but for a file at one place, which one of them may lack. -/
structure SameBut (place : Files.Place) (a b : World) : Prop where
  store : Files.Store.SameBut place a.store b.store
  workingDirectory_eq : a.workingDirectory = b.workingDirectory
  homeDirectory_eq : a.homeDirectory = b.homeDirectory
  input_eq : a.input = b.input
  output_eq : a.output = b.output

/-- A text that was stored is read. -/
theorem text?_of_leadsTo {world : World} {path text : String} {place : Files.Place}
    (hpath : world.LeadsTo path place)
    (hfile : world.store.get? place = some (.file text.toUTF8)) : world.text? path = some text := by
  unfold text?
  rw [Files.Store.read?_of_locate hpath, hfile]
  exact dif_pos text.isValidUTF8

namespace SameBut

variable {a b : World} {place : Files.Place} {path : String} {options : Options}

theorem symm (h : SameBut place a b) : SameBut place b a where
  store := h.store.symm
  workingDirectory_eq := h.workingDirectory_eq.symm
  homeDirectory_eq := h.homeDirectory_eq.symm
  input_eq := h.input_eq.symm
  output_eq := h.output_eq.symm

theorem leadsTo_iff (h : SameBut place a b) {target : Files.Place} :
    a.LeadsTo path target ↔ b.LeadsTo path target := by
  unfold LeadsTo
  rw [← h.workingDirectory_eq]
  exact h.store.locate_iff

theorem text?_eq (h : SameBut place a b) (hpath : ¬ a.LeadsTo path place) :
    a.text? path = b.text? path := by
  unfold text?
  rw [← h.workingDirectory_eq, h.store.read?_eq hpath]

theorem isFile_eq (h : SameBut place a b) (hpath : ¬ a.LeadsTo path place) :
    a.isFile path = b.isFile path := by
  unfold isFile
  rw [← h.workingDirectory_eq]
  exact h.store.isFile_eq hpath

/-- The first file of a list of paths is the same, if it is not the file in question. -/
theorem find?_eq (h : SameBut place a b) {paths : List String}
    (ha : ∀ path, paths.find? a.isFile = some path → ¬ a.LeadsTo path place)
    (hb : ∀ path, paths.find? b.isFile = some path → ¬ b.LeadsTo path place) :
    paths.find? a.isFile = paths.find? b.isFile := by
  induction paths with
  | nil => rfl
  | cons path paths ih =>
    have hfile : a.isFile path = b.isFile path := by
      by_cases hpath : a.LeadsTo path place
      · -- a file there would be the first one, in whichever world it is
        have hnota : ¬ a.isFile path = true := fun hfound =>
          ha path (List.find?_cons_of_pos hfound) hpath
        have hnotb : ¬ b.isFile path = true := fun hfound =>
          hb path (List.find?_cons_of_pos hfound) (h.leadsTo_iff.mp hpath)
        rw [Bool.not_eq_true] at hnota hnotb
        rw [hnota, hnotb]
      · exact h.isFile_eq hpath
    rw [List.find?_cons] at ha hb ⊢
    rw [List.find?_cons]
    rw [← hfile] at hb ⊢
    cases hfound : a.isFile path with
    | true => rfl
    | false =>
      rw [hfound] at ha hb
      exact ih ha hb

theorem settingsFile_eq (h : SameBut place a b) (ha : a.SettingsAvoid options place)
    (hb : b.SettingsAvoid options place) : a.settingsFile options = b.settingsFile options := by
  unfold SettingsAvoid settingsFile at ha hb
  unfold settingsFile
  cases hconfig : options.config with
  | some path => rfl
  | none =>
    cases hbatch : options.batch with
    | true => rfl
    | false =>
      simp only [hconfig, hbatch, Bool.false_eq_true, if_false] at ha hb ⊢
      have hpaths : b.settingsPaths = a.settingsPaths := by
        unfold settingsPaths
        rw [h.workingDirectory_eq, h.homeDirectory_eq]
      rw [hpaths] at hb ⊢
      exact h.find?_eq ha hb

/-- **The keywords are the same**, if the file in question is the settings file in neither world. -/
theorem keywords_eq (h : SameBut place a b) (ha : a.SettingsAvoid options place)
    (hb : b.SettingsAvoid options place) : a.keywords options = b.keywords options := by
  have hfile := h.settingsFile_eq ha hb
  unfold keywords settingsKeywords
  rw [← hfile]
  cases hchosen : a.settingsFile options with
  | none => rfl
  | some path =>
    have hat : a.keywordsAt path = b.keywordsAt path := by
      unfold keywordsAt
      rw [h.text?_eq (ha path hchosen)]
    exact congrArg (Except.map (·.insertAll options.keywords)) hat

end SameBut

end FlowDesugar.World
