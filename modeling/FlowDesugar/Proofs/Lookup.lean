import Mathlib.Data.List.Induction
import FlowDesugar.Proofs.Ancestors
import FlowDesugar.Proofs.Worlds

/-!
# Where the keywords of a run come from

The keywords of a run are those of one settings file, or the default ones, and those of the command
line that are new. Which file it is (`World.Applies`) and what it comes to (`World.Gives`) are
relations here, one case to a rule: the file of the directory with the most steps is said to apply,
and not the first that a search comes by.

`World.load_lawful` says that loading the settings keeps to the rules in every world, and that the
search for a file ends wherever it starts.
-/

namespace FlowDesugar

/-! ### Adding keywords -/

namespace Keywords

/-- The words that are not in `base`, each once and in the order in which they first occur. -/
structure IsNew (base words added : List String) : Prop where
  mem_iff : ∀ word, word ∈ added ↔ word ∈ words ∧ word ∉ base
  ordered : added.Pairwise fun earlier later => words.idxOf earlier < words.idxOf later

theorem contains_iff {keywords : Keywords} {word : String} :
    keywords.contains word = true ↔ word ∈ keywords.words := by
  unfold contains
  exact List.contains_iff_mem

theorem insertAll_concat (keywords : Keywords) (words : List String) (word : String) :
    keywords.insertAll (words ++ [word]) = (keywords.insertAll words).insert word := by
  unfold insertAll
  rw [List.foldl_append, List.foldl_cons, List.foldl_nil]

namespace IsNew

variable {base words added : List String} {word : String}

theorem nil (base : List String) : IsNew base [] [] where
  mem_iff := by simp
  ordered := .nil

/-- The positions of the words that are new do not change when a word is added. -/
theorem ordered_concat (h : IsNew base words added) (word : String) :
    added.Pairwise fun earlier later =>
      (words ++ [word]).idxOf earlier < (words ++ [word]).idxOf later := by
  refine h.ordered.imp_of_mem ?_
  intro earlier later hearlier hlater hlt
  rw [List.idxOf_append_of_mem ((h.mem_iff _).mp hearlier).1,
    List.idxOf_append_of_mem ((h.mem_iff _).mp hlater).1]
  exact hlt

theorem concat_of_mem (h : IsNew base words added) (hword : word ∈ base ++ added) :
    IsNew base (words ++ [word]) added where
  mem_iff := by
    intro other
    rw [h.mem_iff, List.mem_append, List.mem_singleton]
    constructor
    · rintro ⟨hmem, hnot⟩
      exact ⟨.inl hmem, hnot⟩
    · rintro ⟨hmem | rfl, hnot⟩
      · exact ⟨hmem, hnot⟩
      · -- the word itself is there already, and not from the base
        exact (h.mem_iff other).mp ((List.mem_append.mp hword).resolve_left hnot)
  ordered := h.ordered_concat word

theorem concat_of_notMem (h : IsNew base words added) (hword : word ∉ base ++ added) :
    IsNew base (words ++ [word]) (added ++ [word]) where
  mem_iff := by
    have hbase : word ∉ base := fun hmem => hword (List.mem_append_left _ hmem)
    intro other
    rw [List.mem_append, List.mem_append, List.mem_singleton, h.mem_iff]
    constructor
    · rintro (⟨hmem, hnot⟩ | rfl)
      · exact ⟨.inl hmem, hnot⟩
      · exact ⟨.inr rfl, hbase⟩
    · rintro ⟨hmem | rfl, hnot⟩
      · exact .inl ⟨hmem, hnot⟩
      · exact .inr rfl
  ordered := by
    refine List.pairwise_append.mpr ⟨h.ordered_concat word, List.pairwise_singleton _ _, ?_⟩
    intro earlier hearlier later hlater
    obtain rfl := List.mem_singleton.mp hlater
    -- the word is new, so it stands behind all that there were
    have hmem : earlier ∈ words := ((h.mem_iff earlier).mp hearlier).1
    have hnot : later ∉ words := by
      intro hlater
      have hbase : later ∉ base := fun hmem => hword (List.mem_append_left _ hmem)
      exact hword (List.mem_append_right _ ((h.mem_iff later).mpr ⟨hlater, hbase⟩))
    rw [List.idxOf_append_of_mem hmem, List.idxOf_append_of_notMem hnot]
    exact Nat.lt_of_lt_of_le (List.idxOf_lt_length_iff.mpr hmem) (Nat.le_add_right _ _)

theorem mem_append_iff (h : IsNew base words added) :
    word ∈ base ++ added ↔ word ∈ base ∨ word ∈ words := by
  rw [List.mem_append, h.mem_iff]
  by_cases hbase : word ∈ base
  · simp only [hbase, true_or]
  · simp only [hbase, false_or, not_false_eq_true, and_true]

end IsNew

/-- **Adding keywords** keeps those that are there and puts the new ones behind them. -/
theorem exists_words_insertAll (keywords : Keywords) (words : List String) :
    ∃ added, (keywords.insertAll words).words = keywords.words ++ added ∧
      IsNew keywords.words words added := by
  -- The induction is from the end of the words, where a word is compared with all before it.
  induction words using List.reverseRecOn with
  | nil => exact ⟨[], (List.append_nil _).symm, .nil _⟩
  | append_singleton words word ih =>
    obtain ⟨added, hwords, hnew⟩ := ih
    rw [insertAll_concat, insert]
    split
    · next hcontains =>
      rw [contains_iff, hwords] at hcontains
      exact ⟨added, hwords, hnew.concat_of_mem hcontains⟩
    · next hcontains =>
      rw [contains_iff, hwords] at hcontains
      refine ⟨added ++ [word], ?_, hnew.concat_of_notMem hcontains⟩
      change (keywords.insertAll words).words ++ [word] = _
      rw [hwords, List.append_assoc]

end Keywords

/-! ### What a settings file comes to -/

namespace Settings

theorem string?_eq_some {item : Toml.Value} {word : String} (h : string? item = some word) :
    item = .string word := by
  cases item with
  | string text => rw [Option.some.inj h]
  | _ => cases h

/-- The items of an array are the strings they are read as, or one of them is no string. -/
theorem mapM_string?_cases (items : List Toml.Value) :
    (∃ words : List String, items.mapM string? = some words ∧ items = words.map .string) ∨
      items.mapM string? = none ∧ ∃ item ∈ items, ∀ word, item ≠ .string word := by
  induction items with
  | nil => exact .inl ⟨[], rfl, rfl⟩
  | cons item items ih =>
    rw [List.mapM_cons]
    cases hitem : string? item with
    | none =>
      refine .inr ⟨rfl, item, List.mem_cons_self, ?_⟩
      rintro word rfl
      cases hitem
    | some word =>
      obtain ⟨words, hread, hitems⟩ | ⟨hread, other, hmem, hother⟩ := ih
      · rw [hread, string?_eq_some hitem, hitems]
        exact .inl ⟨word :: words, rfl, rfl⟩
      · rw [hread]
        exact .inr ⟨rfl, other, List.mem_cons_of_mem _ hmem, hother⟩

end Settings

namespace World

/-- The keywords that a settings file, or none, gives to a run, or why it gives none. -/
inductive Gives (world : World) : Option String → Except RunError (List String) → Prop where
  | noFile : Gives world none (.ok Keywords.default.words)
  | unreadable {path : String} (htext : world.text? path = none) :
      Gives world (some path) (.error (.unreadable path))
  | notToml {path text : String} (htext : world.text? path = some text)
      (hread : Toml.read? text = none) :
      Gives world (some path) (.error (.settings path .notToml))
  | unset {path text : String} {settings : Toml.Value} (htext : world.text? path = some text)
      (hread : Toml.read? text = some settings) (hkey : settings.get? "keywords" = none) :
      Gives world (some path) (.ok Keywords.default.words)
  | set {path text : String} {settings : Toml.Value} {words : List String}
      (htext : world.text? path = some text) (hread : Toml.read? text = some settings)
      (hkey : settings.get? "keywords" = some (.array (words.map .string))) :
      Gives world (some path) (.ok words)
  | notArray {path text : String} {settings value : Toml.Value}
      (htext : world.text? path = some text) (hread : Toml.read? text = some settings)
      (hkey : settings.get? "keywords" = some value) (hvalue : ∀ items, value ≠ .array items) :
      Gives world (some path) (.error (.settings path .keywordsNotArray))
  | notStrings {path text : String} {settings item : Toml.Value} {items : List Toml.Value}
      (htext : world.text? path = some text) (hread : Toml.read? text = some settings)
      (hkey : settings.get? "keywords" = some (.array items)) (hmem : item ∈ items)
      (hitem : ∀ word, item ≠ .string word) :
      Gives world (some path) (.error (.settings path .keywordsNotStrings))

theorem gives_keywordsAt (world : World) (path : String) :
    world.Gives (some path) ((world.keywordsAt path).map (·.words)) := by
  unfold keywordsAt Settings.keywordsIn
  -- one case for each thing that can be wrong, in the order in which they are looked at
  cases htext : world.text? path with
  | none => exact .unreadable htext
  | some text =>
    cases hread : Toml.read? text with
    | none => simpa only [hread] using .notToml htext hread
    | some settings =>
      cases hkey : settings.get? "keywords" with
      | none => simpa only [hread, hkey] using .unset htext hread hkey
      | some value =>
        cases value with
        | array items =>
          obtain ⟨words, hwords, hitems⟩ | ⟨hnone, item, hmem, hitem⟩ :=
            Settings.mapM_string?_cases items
          · simp only [hread, hkey, hwords]
            exact .set htext hread (hitems ▸ hkey)
          · simp only [hread, hkey, hnone]
            exact .notStrings htext hread hkey hmem hitem
        | _ =>
          simp only [hread, hkey]
          exact .notArray htext hread hkey (fun items heq => by cases heq)

theorem gives_settingsKeywords (world : World) (options : Options) :
    world.Gives (world.settingsFile options)
      ((world.settingsKeywords options).map (·.words)) := by
  unfold settingsKeywords
  cases world.settingsFile options with
  | none => exact .noFile
  | some path => exact world.gives_keywordsAt path

/-! ### Which settings file applies -/

/-- The path of the working directory. -/
def directoryPath (world : World) : String :=
  "/" ++ "/".intercalate world.workingDirectory

/-- The names that lead to the working directory. -/
def directory (world : World) : List String :=
  Files.steps world.directoryPath

/-- The directory with these names has a settings file. -/
def HasSettings (world : World) (names : List String) : Prop :=
  world.store.HasFile (names ++ [Settings.fileName])

/-- The settings file that applies, if there is one. -/
inductive Applies (world : World) (options : Options) : Option String → Prop where
  /-- The file of the command line goes before all others, also if others are to be left alone. -/
  | named {path : String} (hconfig : options.config = some path) : Applies world options (some path)
  | batch (hconfig : options.config = none) (hbatch : options.batch = true) :
      Applies world options none
  /-- The file of the deepest directory that has one, down to the working directory. -/
  | nearest {path : String} {names : List String} (hconfig : options.config = none)
      (hbatch : options.batch = false)
      (hnames : Files.IsDeepest world.HasSettings world.directory names)
      (habsolute : Files.IsAbsolute path)
      (hpath : Files.steps path = names ++ [Settings.fileName]) :
      Applies world options (some path)
  | user {home : String} (hconfig : options.config = none) (hbatch : options.batch = false)
      (hnone : ∀ names, names <+: world.directory → ¬ world.HasSettings names)
      (hhome : world.homeDirectory = some home)
      (hfile : world.isFile (Files.join home Settings.userFileName) = true) :
      Applies world options (some (Files.join home Settings.userFileName))
  | nowhere (hconfig : options.config = none) (hbatch : options.batch = false)
      (hnone : ∀ names, names <+: world.directory → ¬ world.HasSettings names)
      (hhome : ∀ home, world.homeDirectory = some home →
        ¬ world.isFile (Files.join home Settings.userFileName) = true) :
      Applies world options none

theorem isAbsolute_directoryPath (world : World) : Files.IsAbsolute world.directoryPath := by
  unfold Files.IsAbsolute directoryPath
  rw [String.toList_append]
  rfl

/-- The search upwards finds the file of the deepest directory. -/
theorem find?_ancestors_cases (world : World) :
    (∃ path names,
        ((Files.ancestors world.directoryPath).map
          (Files.join · Settings.fileName)).find? world.isFile = some path ∧
        Files.IsDeepest world.HasSettings world.directory names ∧ Files.IsAbsolute path ∧
        Files.steps path = names ++ [Settings.fileName]) ∨
      ((Files.ancestors world.directoryPath).map
          (Files.join · Settings.fileName)).find? world.isFile = none ∧
        ∀ names, names <+: world.directory → ¬ world.HasSettings names := by
  have hname : '/' ∉ Settings.fileName.toList := by decide
  have hstep : Files.IsStep Settings.fileName := by decide
  have hholds (path : String) (habsolute : Files.IsAbsolute path) :
      (world.isFile ∘ (Files.join · Settings.fileName)) path = true
        ↔ world.HasSettings (Files.steps path) :=
    world.store.isFile_join_iff world.workingDirectory habsolute hname hstep
  rw [List.find?_map]
  obtain ⟨found, hfound, habsolute, hdeepest⟩ | ⟨hnone, hno⟩ :=
    (Files.ascent_ancestors _).find? hholds world.isAbsolute_directoryPath
  · rw [hfound]
    exact .inl ⟨_, _, rfl, hdeepest, Files.isAbsolute_join habsolute hname,
      Files.steps_join habsolute hname hstep⟩
  · rw [hnone]
    exact .inr ⟨rfl, hno⟩

theorem applies_settingsFile (world : World) (options : Options) :
    world.Applies options (world.settingsFile options) := by
  unfold settingsFile
  cases hconfig : options.config with
  | some path => exact .named hconfig
  | none =>
    cases hbatch : options.batch with
    | true => exact .batch hconfig hbatch
    | false =>
      have hpaths : world.settingsPaths
          = (Files.ancestors world.directoryPath).map (Files.join · Settings.fileName)
            ++ world.homeDirectory.toList.map (Files.join · Settings.userFileName) := rfl
      simp only [Bool.false_eq_true, if_false, hpaths, List.find?_append]
      obtain ⟨path, names, hfound, hnames, habsolute, hpath⟩ | ⟨hnone, hno⟩ :=
        world.find?_ancestors_cases
      · rw [hfound]
        exact .nearest hconfig hbatch hnames habsolute hpath
      · rw [hnone, Option.none_or]
        -- no directory has one, so it is up to the user's
        cases hhome : world.homeDirectory with
        | none =>
          apply Applies.nowhere hconfig hbatch hno
          intro home hsome
          rw [hhome] at hsome
          cases hsome
        | some home =>
          rw [Option.toList_some, List.map_singleton]
          by_cases hfile : world.isFile (Files.join home Settings.userFileName) = true
          · rw [List.find?_cons_of_pos hfile]
            exact .user hconfig hbatch hno hhome hfile
          · rw [List.find?_cons_of_neg hfile, List.find?_nil]
            apply Applies.nowhere hconfig hbatch hno
            intro other hsome
            obtain rfl : home = other := Option.some.inj (hhome.symm.trans hsome)
            exact hfile

/-- A directory in another, which has a settings file, as the user has. -/
def twoSettings : World where
  store := ⟨[(["a"], .directory), (["a", "b"], .directory), (["home"], .directory),
    (["a", "procsugar.toml"], .file .empty), (["home", ".procsugar.toml"], .file .empty)]⟩
  workingDirectory := ["a", "b"]
  homeDirectory := some "/home"

example : twoSettings.settingsFile { tree := "tree.json" } = some "/a/procsugar.toml" := by rfl

/-! ### Loading -/

/-- **The keywords of a run.** Either the settings file that applies is at fault, or the keywords
are those that it gives, followed by the new ones of the command line. The search for a file ends
wherever it starts. -/
theorem load_lawful (world : World) (options : Options) :
    (∃ file outcome, world.Applies options file ∧ world.Gives file outcome ∧
      ((∃ error, outcome = .error error ∧
          (Settings.load host options).run.run world = (.error error, world)) ∨
        ∃ base keywords added, outcome = .ok base ∧
          (Settings.load host options).run.run world = (.ok keywords, world) ∧
          keywords.words = base ++ added ∧ Keywords.IsNew base options.keywords added ∧
          ∀ method, keywords.contains method = true ↔
            method ∈ base ∨ method ∈ options.keywords)) ∧
      ∀ start, ∃ paths, Files.Ascent start paths ∧
        (Settings.nearest host start).run world
          = ((paths.map (Files.join · Settings.fileName)).find? world.isFile, world) := by
  refine ⟨⟨world.settingsFile options, (world.settingsKeywords options).map (·.words),
    world.applies_settingsFile options, world.gives_settingsKeywords options, ?_⟩, ?_⟩
  · rw [run_load]
    unfold keywords
    cases world.settingsKeywords options with
    | error error => exact .inl ⟨error, rfl, rfl⟩
    | ok base =>
      obtain ⟨added, hwords, hnew⟩ := base.exists_words_insertAll options.keywords
      refine .inr ⟨base.words, base.insertAll options.keywords, added, rfl, rfl, hwords, hnew, ?_⟩
      intro method
      rw [Keywords.contains_iff, hwords]
      exact hnew.mem_append_iff
  · intro start
    exact ⟨Files.ancestors start, Files.ascent_ancestors start, run_firstFile world _⟩

end World

end FlowDesugar
