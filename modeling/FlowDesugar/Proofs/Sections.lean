import FlowDesugar.Declaration

/-!
# Effective sections

The section of a statement is that of the nearest label at or before it. `Section.effective` says so
directly, for the statement with a given number; the functions that assign sections and split a
block carry the section along instead. Here the two are brought together:

* `Section.effective_eq_iff` — which statements are in which section, by their labels.

* `Section.split_eq` — the statements that stay in a block are those outside the script's section,
  each with its effective section, and the script is made of the others, both in order.

* `Section.assign_picked` — statements that are picked by their sections and read again by
  themselves get the sections they had: with a statement goes the label that puts it into its
  section, if there is one.

* `Section.split_readable` — a split goes by effective sections, and both of its parts can be read
  again.

A block without statements of the script's section keeps all of its statements
(`Section.retained_of_script_nil`).
-/

namespace FlowDesugar

namespace Section

/-- The label nearest to statement number `i`, at it or before it. -/
def nearestLabel? (stmts : List Stmt) (i : Nat) : Option String :=
  ((stmts.take (i + 1)).filterMap Stmt.label).getLast?

/-- The section that the nearest label puts statement number `i` into. -/
def effective (stmts : List Stmt) (i : Nat) : Section :=
  (nearestLabel? stmts i).elim plain ofLabel

/-- The labels that start a section. The plain one has none of its own. -/
def labels : Section → List String
  | plain => []
  | input => ["input"]
  | output => ["output"]
  | share => ["share"]
  | exec => ["exec", "script"]

/-- The statements of a block with their effective sections. -/
def sectioned (stmts : List Stmt) : List (Section × Stmt) :=
  stmts.mapIdx fun i stmt => (effective stmts i, stmt)

/-- The statements outside the script's section, with their effective sections. -/
def retained (stmts : List Stmt) : List (Section × Stmt) :=
  (sectioned stmts).filter fun p => p.1 ≠ exec

/-- The statements of the script's section. -/
def script (stmts : List Stmt) : List Stmt :=
  ((sectioned stmts).filter fun p => p.1 = exec).map Prod.snd

/-! ### The sections that labels start -/

theorem ofLabel_of_mem_labels {label : String} {here : Section} (h : label ∈ here.labels) :
    ofLabel label = here := by
  cases here with
  | plain => cases h
  | exec =>
    obtain rfl | h := List.mem_cons.mp h
    · rfl
    · cases List.mem_singleton.mp h
      rfl
  | _ =>
    cases List.mem_singleton.mp h
    rfl

theorem ofLabel_eq_plain {label : String} (h : ∀ other : Section, label ∉ other.labels) :
    ofLabel label = plain := by
  unfold ofLabel
  rw [if_neg, if_neg, if_neg, if_neg]
  · exact fun hexec => h exec (by simpa [labels] using hexec)
  · exact fun hshare => h share (List.mem_singleton.mpr hshare)
  · exact fun houtput => h output (List.mem_singleton.mpr houtput)
  · exact fun hinput => h input (List.mem_singleton.mpr hinput)

/-- A section is started by its own labels, and the plain one by all that start no other. -/
theorem ofLabel_eq_iff {label : String} {here : Section} :
    ofLabel label = here ↔
      label ∈ here.labels ∨ here = plain ∧ ∀ other : Section, label ∉ other.labels := by
  constructor
  · rintro rfl
    by_cases hsome : ∃ other : Section, label ∈ other.labels
    · obtain ⟨other, hother⟩ := hsome
      rw [ofLabel_of_mem_labels hother]
      exact .inl hother
    · have hnone : ∀ other : Section, label ∉ other.labels := fun other hother =>
        hsome ⟨other, hother⟩
      exact .inr ⟨ofLabel_eq_plain hnone, hnone⟩
  · rintro (h | ⟨rfl, hnone⟩)
    · exact ofLabel_of_mem_labels h
    · exact ofLabel_eq_plain hnone

/-- **The effective section of a statement**: that of the nearest label, and the plain one if there
is no label, or only one that starts no section. -/
theorem effective_eq_iff {stmts : List Stmt} {i : Nat} {here : Section} :
    effective stmts i = here ↔
      (∃ label ∈ here.labels, nearestLabel? stmts i = some label) ∨
      here = plain ∧ ∀ label, nearestLabel? stmts i = some label →
        ∀ other : Section, label ∉ other.labels := by
  unfold effective
  cases nearestLabel? stmts i with
  | none => simp [eq_comm]
  | some label =>
    rw [Option.elim_some, ofLabel_eq_iff]
    simp

/-! ### The section carried along is the effective one -/

/-- The effective section of a statement that follows statements of the section `current`. -/
private def effectiveFrom (current : Section) (stmts : List Stmt) (i : Nat) : Section :=
  (nearestLabel? stmts i).elim current ofLabel

private theorem effectiveFrom_zero (current : Section) (stmt : Stmt) (stmts : List Stmt) :
    effectiveFrom current (stmt :: stmts) 0 = current.advance stmt := by
  unfold effectiveFrom nearestLabel? advance
  cases h : stmt.label with
  | none => simp [h]
  | some label => simp [h]

/-- Past the first statement, its section is what later statements follow. -/
private theorem effectiveFrom_succ (current : Section) (stmt : Stmt) (stmts : List Stmt) (i : Nat) :
    effectiveFrom current (stmt :: stmts) (i + 1)
      = effectiveFrom (current.advance stmt) stmts i := by
  unfold effectiveFrom nearestLabel? advance
  rw [List.take_succ_cons]
  cases h : stmt.label with
  | none => rw [List.filterMap_cons_none h]
  | some label =>
    rw [List.filterMap_cons_some h, List.getLast?_cons]
    cases ((stmts.take (i + 1)).filterMap Stmt.label).getLast? <;> rfl

/-- Statements that follow statements of the section `current`, with their effective sections. -/
private def sectionedFrom (current : Section) (stmts : List Stmt) : List (Section × Stmt) :=
  stmts.mapIdx fun i stmt => (effectiveFrom current stmts i, stmt)

private theorem sectionedFrom_cons (current : Section) (stmt : Stmt) (stmts : List Stmt) :
    sectionedFrom current (stmt :: stmts)
      = (current.advance stmt, stmt) :: sectionedFrom (current.advance stmt) stmts := by
  unfold sectionedFrom
  rw [List.mapIdx_cons, effectiveFrom_zero]
  simp only [effectiveFrom_succ]

private theorem splitFrom_eq (current : Section) (stmts : List Stmt) :
    splitFrom current stmts =
      { retained := (sectionedFrom current stmts).filter fun p => p.1 ≠ exec
        script := ((sectionedFrom current stmts).filter fun p => p.1 = exec).map Prod.snd } := by
  -- the section changes from statement to statement, so the induction is for every `current`
  induction stmts generalizing current with
  | nil => rfl
  | cons stmt stmts ih =>
    rw [sectionedFrom_cons, splitFrom, ih]
    by_cases h : current.advance stmt = exec <;> simp [h]

/-- **Splitting goes by effective sections.** -/
theorem split_eq (stmts : List Stmt) :
    split stmts = { retained := retained stmts, script := script stmts } :=
  splitFrom_eq plain stmts

/-! ### Blocks without a script's section -/

/-- Without a script's section, every statement is retained. -/
theorem retained_of_script_nil {stmts : List Stmt} (h : script stmts = []) :
    retained stmts = sectioned stmts := by
  rw [script, List.map_eq_nil_iff, List.filter_eq_nil_iff] at h
  refine List.filter_eq_self.mpr fun p hp => ?_
  simpa using h p hp

@[simp] theorem map_snd_sectioned (stmts : List Stmt) :
    (sectioned stmts).map Prod.snd = stmts := by
  refine List.ext_getElem? fun i => ?_
  rw [sectioned, List.getElem?_map, List.getElem?_mapIdx]
  cases stmts[i]? <;> rfl

theorem snd_mem_of_mem_sectioned {stmts : List Stmt} {part : Section × Stmt}
    (h : part ∈ sectioned stmts) : part.2 ∈ stmts := by
  rw [← map_snd_sectioned stmts]
  exact List.mem_map_of_mem h

theorem snd_mem_of_mem_retained {stmts : List Stmt} {part : Section × Stmt}
    (h : part ∈ retained stmts) : part.2 ∈ stmts :=
  snd_mem_of_mem_sectioned (List.mem_filter.mp h).1

theorem mem_of_mem_script {stmts : List Stmt} {stmt : Stmt} (h : stmt ∈ script stmts) :
    stmt ∈ stmts := by
  obtain ⟨part, hpart, rfl⟩ := List.mem_map.mp h
  exact snd_mem_of_mem_sectioned (List.mem_filter.mp hpart).1

/-! ### Reading sections again -/

private theorem sectionedFrom_eq_zip (current : Section) (stmts : List Stmt) :
    sectionedFrom current stmts = (assignFrom current stmts).zip stmts := by
  induction stmts generalizing current with
  | nil => rfl
  | cons stmt stmts ih => rw [sectionedFrom_cons, ih, assignFrom, List.zip_cons_cons]

theorem sectioned_eq_zip (stmts : List Stmt) : sectioned stmts = (assign stmts).zip stmts :=
  sectionedFrom_eq_zip plain stmts

@[simp] theorem length_assignFrom (current : Section) (stmts : List Stmt) :
    (assignFrom current stmts).length = stmts.length := by
  induction stmts generalizing current with
  | nil => rfl
  | cons stmt stmts ih => rw [assignFrom, List.length_cons, List.length_cons, ih]

@[simp] theorem map_fst_sectioned (stmts : List Stmt) :
    (sectioned stmts).map Prod.fst = assign stmts := by
  rw [sectioned_eq_zip]
  exact List.map_fst_zip (Nat.le_of_eq (length_assignFrom plain stmts))

/-- Sections go by labels alone. -/
theorem assignFrom_congr {stmts stmts' : List Stmt} (current : Section)
    (h : stmts.map Stmt.label = stmts'.map Stmt.label) :
    assignFrom current stmts = assignFrom current stmts' := by
  induction stmts generalizing current stmts' with
  | nil => rw [List.map_eq_nil_iff.mp h.symm]
  | cons stmt stmts ih =>
    cases stmts' with
    | nil => cases h
    | cons stmt' stmts' =>
      obtain ⟨hlabel, hrest⟩ := List.cons.inj h
      have hadvance : current.advance stmt = current.advance stmt' := by
        unfold advance
        rw [hlabel]
      rw [assignFrom, assignFrom, hadvance, ih _ hrest]

private theorem assignFrom_append (current : Section) (stmts rest : List Stmt) :
    assignFrom current (stmts ++ rest)
      = assignFrom current stmts ++ assignFrom (stmts.foldl advance current) rest := by
  induction stmts generalizing current with
  | nil => rfl
  | cons stmt stmts ih =>
    rw [List.cons_append, assignFrom, assignFrom, ih]
    rfl

/-- One more statement does not change the sections of those before it. -/
theorem sectioned_concat (stmts : List Stmt) (stmt : Stmt) :
    sectioned (stmts ++ [stmt])
      = sectioned stmts ++ [((stmts.foldl advance plain).advance stmt, stmt)] := by
  have hlength := length_assignFrom plain stmts
  rw [sectioned_eq_zip, sectioned_eq_zip, assign, assignFrom_append, List.zip_append hlength]
  rfl

/-- Statements leave behind the section they found or one of their own. -/
theorem foldl_advance_mem (current : Section) (stmts : List Stmt) :
    stmts.foldl advance current ∈ current :: assignFrom current stmts := by
  induction stmts generalizing current with
  | nil => exact List.mem_cons_self
  | cons stmt stmts ih => exact List.mem_cons_of_mem _ (ih (current.advance stmt))

/-- Some of the statements that follow statements of the section `current`, picked by their sections
and read again behind statements of the section `current'`. -/
private theorem assignFrom_picked (pick : Section → Bool) {current current' : Section}
    (h : pick current = true → current' = current) (stmts : List Stmt) :
    assignFrom current' (((sectionedFrom current stmts).filter fun p => pick p.1).map Prod.snd)
      = ((sectionedFrom current stmts).filter fun p => pick p.1).map Prod.fst := by
  -- Where statements have been left out, the next one that is picked begins another section, so it
  -- has a label. The section from which it is read again does not matter there, and so the two
  -- sections have to agree only while `current` is one of those that are picked.
  induction stmts generalizing current current' with
  | nil => rfl
  | cons stmt stmts ih =>
    rw [sectionedFrom_cons]
    by_cases hpick : pick (current.advance stmt) = true
    · have hsame : current'.advance stmt = current.advance stmt := by
        unfold advance at hpick ⊢
        cases hlabel : stmt.label with
        | none => exact h (by simpa only [hlabel] using hpick)
        | some label => rfl
      rw [List.filter_cons, if_pos hpick, List.map_cons, List.map_cons, assignFrom, hsame,
        ih fun _ => rfl]
    · rw [List.filter_cons, if_neg hpick]
      exact ih fun hcurrent => absurd hcurrent hpick

/-- **Statements that are picked by their sections keep them**, whichever sections are picked. -/
theorem assign_picked (pick : Section → Bool) (stmts : List Stmt) :
    assign (((sectioned stmts).filter fun p => pick p.1).map Prod.snd)
      = ((sectioned stmts).filter fun p => pick p.1).map Prod.fst :=
  assignFrom_picked pick (fun _ => rfl) stmts

/-- **What stays keeps its sections.** -/
theorem assign_retained (stmts : List Stmt) :
    assign ((retained stmts).map Prod.snd) = (retained stmts).map Prod.fst :=
  assign_picked (fun s => s ≠ exec) stmts

theorem exec_notMem_retained (stmts : List Stmt) : exec ∉ (retained stmts).map Prod.fst := by
  intro hmem
  obtain ⟨part, hpart, hexec⟩ := List.mem_map.mp hmem
  have hne : part.1 ≠ exec := by simpa using (List.mem_filter.mp hpart).2
  exact hne hexec

/-- A script is read again as a script from its first statement on. -/
theorem assign_script (stmts : List Stmt) :
    assign (script stmts) = List.replicate (script stmts).length exec := by
  refine List.eq_replicate_iff.mpr ⟨length_assignFrom plain _, fun s hs => ?_⟩
  have hpicked : assign (script stmts) = _ := assign_picked (fun s => s = exec) stmts
  rw [hpicked] at hs
  obtain ⟨part, hpart, rfl⟩ := List.mem_map.mp hs
  simpa using (List.mem_filter.mp hpart).2

/-- **A split can be read again.** It goes by effective sections and keeps the order of the
statements, and either part, read by itself, consists of statements of the sections it was made
of. -/
theorem split_readable (stmts : List Stmt) :
    (split stmts).retained = (sectioned stmts).filter (fun p => p.1 ≠ exec)
      ∧ (split stmts).script = ((sectioned stmts).filter fun p => p.1 = exec).map Prod.snd
      ∧ assign ((split stmts).retained.map Prod.snd) = (split stmts).retained.map Prod.fst
      ∧ exec ∉ assign ((split stmts).retained.map Prod.snd)
      ∧ assign (split stmts).script = List.replicate (split stmts).script.length exec := by
  rw [split_eq]
  have hretained := assign_retained stmts
  refine ⟨rfl, rfl, hretained, ?_, assign_script stmts⟩
  show exec ∉ assign ((retained stmts).map Prod.snd)
  rw [hretained]
  exact exec_notMem_retained stmts

end Section

end FlowDesugar
