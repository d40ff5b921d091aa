import FlowDesugar.Proofs.Canonical

/-!
# Desugaring a whole tree

A pass over a tree is a run over its topmost definitions (`Block.desugar_eq`), and every definition
of a run that has a result is a step (`Definition.step_of_canonical_run`). Here the steps are put
together. `Definition.accounts_of_run` gives, for each definition of a run, the call it became, the
record it left and the report it caused, if any:

* `Block.desugar_replaces_definitions` — the result is the tree with a canonical call in the place
  of each topmost definition, and the records and new locations are those of these definitions, one
  for each;
* `Block.desugar_accounts_agree` — the flag in the call, the record and the report of a definition
  tell the same about its script; `Definition.Reported` says what is reported and where.
-/

namespace FlowDesugar

/-! ### Locations added by a run -/

namespace SourceMap

/-- The source map after the locations of the script flags of definitions have been added, one after
another. -/
def withFlags (map : SourceMap) (ds : List Definition) : SourceMap :=
  ds.foldl (fun map d => map.withFlag d.loc) map

@[simp] theorem withFlags_cons (map : SourceMap) (d : Definition) (ds : List Definition) :
    map.withFlags (d :: ds) = (map.withFlag d.loc).withFlags ds := rfl

theorem size_withFlags (map : SourceMap) (ds : List Definition) :
    (map.withFlags ds).size = map.size + ds.length := by
  induction ds generalizing map with
  | nil => rfl
  | cons d ds ih =>
    have hflag : (map.withFlag d.loc).size = map.size + 1 := size_mint map _
    rw [withFlags_cons, ih, hflag, List.length_cons]
    omega

theorem extends_withFlags (map : SourceMap) (ds : List Definition) :
    (map.withFlags ds).Extends map := by
  induction ds generalizing map with
  | nil => exact .refl map
  | cons d ds ih => exact .trans (extends_mint map _) (ih _)

end SourceMap

/-- A report at a location. Line and column are those of its position, or zero if `map` has none
for it. -/
def Report.located (map : SourceMap) (loc : Handle) (message : String) : Report :=
  match map.position? loc with
  | some position => ⟨message, position.line, position.column⟩
  | none => ⟨message, 0, 0⟩

theorem Report.ofProblem_eq_located (map : SourceMap) (problem : ScriptError) :
    ofProblem map problem = located map problem.loc problem.message := by
  unfold ofProblem located
  cases map.position? problem.loc <;> rfl

namespace Definition

theorem FlagIs.eq_call {d : Definition} {value : Bool} {call : Expr} (h : d.FlagIs value call) :
    ∃ args, call = .call d.loc none d.keyword args := by
  obtain ⟨nameLoc, name, inner, front, flagLoc, -, h⟩ := h
  split at h
  · obtain ⟨body, -, rfl⟩ := h
    exact ⟨_, rfl⟩
  · exact ⟨_, h⟩

/-! ### What is reported -/

/-- What is reported about a definition, if anything. -/
inductive Reported (map : SourceMap) (d : Definition) : Option Report → Prop
  /-- Nothing, if the body has a script: in a section of its own or as the last statement. -/
  | scripted {nameLoc bodyLoc : Handle} {name : String} {init : List Expr} {body : Block}
      (inner_eq : inner? d.args = some (nameLoc, name, init ++ [.thunk bodyLoc body]))
      (script : Section.script body.stmts ≠ [] ∨ ∃ last, body.stmts.getLast? = some last ∧
        (last.expr.isThunk ∨ last.expr.isTextual)) :
      Reported map d none
  /-- The last statement of the body, if it is no script. -/
  | otherTail {nameLoc bodyLoc : Handle} {name : String} {init : List Expr} {body : Block}
      {last : Stmt} (inner_eq : inner? d.args = some (nameLoc, name, init ++ [.thunk bodyLoc body]))
      (noSection : Section.script body.stmts = []) (last_eq : body.stmts.getLast? = some last)
      (noThunk : ¬ last.expr.isThunk) (noText : ¬ last.expr.isTextual) :
      Reported map d (some (.located map last.loc
        "process must terminate with a quoted script expression or explicit exec/script section"))
  /-- The definition, if its body is empty. -/
  | emptyBody {nameLoc bodyLoc : Handle} {name : String} {init : List Expr} {body : Block}
      (inner_eq : inner? d.args = some (nameLoc, name, init ++ [.thunk bodyLoc body]))
      (empty : body.stmts = []) :
      Reported map d (some (.located map d.loc
        "process must terminate with a quoted script expression or explicit exec/script section"))
  /-- The definition, if it has no body. -/
  | noBody {nameLoc : Handle} {name : String} {inner : List Expr}
      (inner_eq : inner? d.args = some (nameLoc, name, inner)) (noThunk : ¬ endsInThunk inner) :
      Reported map d (some (.located map d.loc ("process " ++ name ++ " has no body")))

/-- The problem of a well-formed definition is reported by these cases. -/
theorem reported_problem? {d : Definition} {nameLoc : Handle} {name : String} {inner : List Expr}
    (map : SourceMap) (hinner : inner? d.args = some (nameLoc, name, inner)) :
    d.Reported map (d.problem?.map (Report.ofProblem map)) := by
  by_cases hbody : endsInThunk inner
  · obtain ⟨init, bodyLoc, body, rfl⟩ := eq_append_of_endsInThunk hbody
    rw [problem?_of_body hinner]
    unfold Block.scriptProblem?
    by_cases hscript : Section.script body.stmts = []
    · rw [if_neg (fun h => h hscript)]
      cases hlast : body.stmts.getLast? with
      | none =>
        rw [Option.map_some, Report.ofProblem_eq_located]
        exact .emptyBody hinner (List.getLast?_eq_none_iff.mp hlast)
      | some last =>
        simp only
        by_cases htail : last.expr.isThunk ∨ last.expr.isTextual
        · rw [if_pos htail]
          exact .scripted hinner (.inr ⟨last, hlast, htail⟩)
        · rw [if_neg htail, Option.map_some, Report.ofProblem_eq_located]
          exact .otherTail hinner hscript hlast (fun h => htail (.inl h)) fun h => htail (.inr h)
    · rw [if_pos hscript]
      exact .scripted hinner (.inl hscript)
  · rw [problem?_of_noBody hinner hbody, Option.map_some, Report.ofProblem_eq_located]
    exact .noBody hinner hbody

/-! ### Accounts -/

/-- What a run leaves of a definition. -/
structure Account where
  definition : Definition
  /-- The call it became. -/
  call : Expr
  record : DefinitionSummary
  /-- What was reported about it, if anything. -/
  report : Option Report

/-- The accounts of a definition agree. The source map is that of the moment when the run came to
the definition. -/
structure Account.Agrees (map : SourceMap) (account : Account) : Prop where
  /-- The record is about the definition. -/
  record_eq : ∃ name, account.definition.name? = some name ∧
    account.record = ⟨account.definition.keyword, name, account.definition.loc,
      account.definition.problem?.isNone⟩
  /-- The flag in the call is that of the record. -/
  flag : account.definition.FlagIs account.record.hasScript account.call
  /-- The definition is reported exactly if it is recorded to have no script. -/
  reported_iff : account.report.isSome ↔ account.record.hasScript = false
  /-- The report is about the reason why it has none, at its position. -/
  report_eq : account.report = account.definition.problem?.map (Report.ofProblem map)
  /-- It is at the last statement of the body or at the definition, as the case may be. -/
  reported : account.definition.Reported map account.report

/-- The accounts of a run over definitions: one for each, in order. -/
structure Accounted (ds : List Definition) (calls : List Expr) (before after : Progress)
    (accounts : List Account) : Prop where
  definitions_eq : accounts.map Account.definition = ds
  calls_eq : accounts.map Account.call = calls
  sourceMap_eq : after.registry.sourceMap = before.registry.sourceMap.withFlags ds
  records_eq : after.records = before.records ++ accounts.map Account.record
  reports_eq : after.reports = before.reports ++ accounts.filterMap Account.report
  agrees : ∀ (i : Nat) (account : Account), accounts[i]? = some account →
    account.Agrees (before.registry.sourceMap.withFlags (ds.take i))

theorem Accounted.nil (progress : Progress) : Accounted [] [] progress progress [] where
  definitions_eq := rfl
  calls_eq := rfl
  sourceMap_eq := rfl
  records_eq := (List.append_nil _).symm
  reports_eq := (List.append_nil _).symm
  agrees := nofun

/-- The account of a step goes before those of the run that follows it. -/
theorem Accounted.cons {d : Definition} {ds : List Definition} {call : Expr} {calls : List Expr}
    {before middle after : Progress} {accounts : List Account} (hd : Step d before call middle)
    (hds : Accounted ds calls middle after accounts) :
    ∃ accounts', Accounted (d :: ds) (call :: calls) before after accounts' := by
  obtain ⟨hmap, hreports, ⟨name, hname, hrecords⟩, hflag⟩ := hd
  -- everything a step leaves goes into one account
  let first : Account :=
    { definition := d
      call := call
      record := ⟨d.keyword, name, d.loc, d.problem?.isNone⟩
      report := d.problem?.map (Report.ofProblem before.registry.sourceMap) }
  refine ⟨first :: accounts, ?_⟩
  constructor
  case definitions_eq => rw [List.map_cons, hds.definitions_eq]
  case calls_eq => rw [List.map_cons, hds.calls_eq]
  case sourceMap_eq => rw [hds.sourceMap_eq, hmap, SourceMap.withFlags_cons]
  case records_eq =>
    rw [hds.records_eq, hrecords, List.append_assoc]
    rfl
  case reports_eq =>
    rw [hds.reports_eq, hreports, List.append_assoc]
    cases hproblem : d.problem? with
    | none => simp [first, hproblem]
    | some problem => simp [first, hproblem]
  case agrees =>
    intro i account hi
    cases i with
    | zero =>
      obtain rfl : first = account := Option.some.inj hi
      obtain ⟨⟨nameLoc, name, inner⟩, hinner, rfl⟩ := Option.map_eq_some_iff.mp hname
      refine ⟨⟨name, hname, rfl⟩, hflag, ?_, rfl, reported_problem? _ hinner⟩
      change (d.problem?.map _).isSome ↔ d.problem?.isNone = false
      cases d.problem? <;> simp
    | succ i =>
      -- the map of the moment has the flag of `d` already
      rw [List.take_succ_cons, SourceMap.withFlags_cons, ← hmap]
      exact hds.agrees i account hi

/-- **The accounts of a run.** -/
theorem accounts_of_run {ds : List Definition} {calls : List Expr} {before after : Progress}
    (h : (ds.mapM canonical).run before = (.ok calls, after)) :
    ∃ accounts, Accounted ds calls before after accounts := by
  refine Pass.run_mapM_induction (motive := fun ds calls before after =>
    ∃ accounts, Accounted ds calls before after accounts) ?_ ?_ h
  · exact fun progress => ⟨[], .nil progress⟩
  · rintro d ds call calls before middle after hd ⟨accounts, hds⟩
    exact hds.cons (step_of_canonical_run hd)

/-- What the definitions became, as definitions again: their keywords and locations are the same. -/
theorem exists_results {accounts : List Account}
    (h : ∀ account ∈ accounts, ∃ map, account.Agrees map) :
    ∃ results : List Definition,
      results.map Definition.expr = accounts.map Account.call ∧
      results.map (fun d => (d.keyword, d.loc))
        = (accounts.map Account.definition).map (fun d => (d.keyword, d.loc)) := by
  induction accounts with
  | nil => exact ⟨[], rfl, rfl⟩
  | cons account accounts ih =>
    obtain ⟨⟨map, hfirst⟩, hrest⟩ := List.forall_mem_cons.mp h
    obtain ⟨args, hcall⟩ := hfirst.flag.eq_call
    obtain ⟨results, hcalls, hsame⟩ := ih hrest
    refine ⟨{ account.definition with args } :: results, ?_, ?_⟩
    · rw [List.map_cons, List.map_cons, hcalls, hcall]
      rfl
    · rw [List.map_cons, List.map_cons, List.map_cons, hsame]

end Definition

open Definition

/-- Definitions that agree in their keywords and locations with the topmost ones of a block, put in
their places, are the topmost ones of the result. -/
theorem Block.definitions_fill_same {keywords : Keywords} {block : Block}
    {results : List Definition}
    (h : results.map (fun d => (d.keyword, d.loc))
      = (block.definitions keywords).map (fun d => (d.keyword, d.loc))) :
    (block.fill keywords (results.map Definition.expr)).definitions keywords = results := by
  refine block.definitions_fill results ?_ (by simpa using congrArg List.length h)
  intro d hd
  have hmem : (d.keyword, d.loc) ∈ (block.definitions keywords).map (fun d => (d.keyword, d.loc)) :=
    h ▸ List.mem_map_of_mem hd
  obtain ⟨d', hd', hsame⟩ := List.mem_map.mp hmem
  have hkeyword : d'.keyword = d.keyword := congrArg Prod.fst hsame
  exact hkeyword ▸ Block.keyword_of_mem_definitions d' hd'

/-- **Desugaring replaces the topmost definitions.** If a pass has a result, the tree and the result
are the same around their topmost definitions, and these have the same keywords and locations, one
by one; a definition is a call without a receiver. The pass leaves one record for each topmost
definition, in order, with its keyword, name and location, and none for definitions inside others.
It adds one location for each record and keeps the locations that were there. -/
theorem Block.desugar_replaces_definitions {keywords : Keywords} {block out : Block}
    {before after : Progress} (h : (block.desugar keywords).run before = (.ok out, after)) :
    block = block.fill keywords ((block.definitions keywords).map Definition.expr) ∧
    out = block.fill keywords ((out.definitions keywords).map Definition.expr) ∧
    (out.definitions keywords).map (fun d => (d.keyword, d.loc))
      = (block.definitions keywords).map (fun d => (d.keyword, d.loc)) ∧
    ∃ records : List DefinitionSummary,
      after.records = before.records ++ records ∧
      records.map (fun r => (r.keyword, some r.name, r.loc))
        = (block.definitions keywords).map (fun d => (d.keyword, d.name?, d.loc)) ∧
      after.registry.sourceMap.size = before.registry.sourceMap.size + records.length ∧
      after.registry.sourceMap.Extends before.registry.sourceMap := by
  rw [Block.desugar_eq, Pass.run_map_eq_ok] at h
  obtain ⟨calls, hrun, rfl⟩ := h
  obtain ⟨accounts, hdefinitions, rfl, hmap, hrecords, -, hagree⟩ := accounts_of_run hrun
  have hagree' : ∀ account ∈ accounts, ∃ map, account.Agrees map := by
    intro account hmem
    obtain ⟨i, hi⟩ := List.getElem?_of_mem hmem
    exact ⟨_, hagree i account hi⟩
  -- the calls are definitions themselves, and so the topmost ones of the result
  obtain ⟨results, hcalls, hsame⟩ := exists_results hagree'
  rw [hdefinitions] at hsame
  rw [← hcalls, Block.definitions_fill_same hsame]
  refine ⟨block.fill_definitions.symm, rfl, hsame, accounts.map Account.record, hrecords,
    ?_, ?_, ?_⟩
  · rw [← hdefinitions, List.map_map, List.map_map]
    refine List.map_congr_left fun account hmem => ?_
    obtain ⟨map, hmap⟩ := hagree' account hmem
    obtain ⟨name, hname, hrecord⟩ := hmap.record_eq
    simp only [Function.comp_apply, hrecord, hname]
  · rw [hmap, SourceMap.size_withFlags, ← hdefinitions, List.length_map, List.length_map]
  · rw [hmap]
    exact SourceMap.extends_withFlags _ _

/-- A list of two definitions: one whose body is a string, and one without a body that has another
definition among its arguments. -/
def Block.sampleDefinitions : Block :=
  let script : Block := ⟨⟨1⟩, [.plain (.entry 1) (.ofText (.entry 1) "ls")]⟩
  let inside : Expr := .call (.entry 3) none "process" [.call .unknown none "baz" []]
  ⟨Scopes.root, [.plain .unknown (.list .unknown
    [.call (.entry 0) none "process" [.call .unknown none "foo" [.thunk .unknown script]],
     .call (.entry 2) none "process" [.call .unknown none "bar" [inside]]])]⟩

theorem Block.desugar_replaces_definitions_list :
    ∃ out after, (sampleDefinitions.desugar .default).run {} = (.ok out, after) ∧
      out = sampleDefinitions.fill .default ((out.definitions .default).map Definition.expr) ∧
      (out.definitions .default).map (fun d => (d.keyword, d.loc))
        = (sampleDefinitions.definitions .default).map (fun d => (d.keyword, d.loc)) ∧
      after.registry.sourceMap.size = after.records.length := by
  obtain ⟨out, after, h⟩ :
      ∃ out after, (sampleDefinitions.desugar .default).run {} = (.ok out, after) := ⟨_, _, rfl⟩
  obtain ⟨-, hout, hsame, records, hrecords, -, hsize, -⟩ := Block.desugar_replaces_definitions h
  refine ⟨out, after, h, hout, hsame, ?_⟩
  rw [hsize, hrecords]
  exact Nat.zero_add _

/-- **The three accounts of a script agree.** If a pass has a result, then for every topmost
definition, in order, the flag in its canonical call, its record and its report tell the same: the
flag is that of the record, and there is a report exactly if the record says that there is no
script. The report is that of `Definition.problem?`, which `Definition.Reported` words case by case,
at the position that is known at the moment; the locations that were there before the pass keep
their positions. So there are as many reports as records without a script. -/
theorem Block.desugar_accounts_agree {keywords : Keywords} {block out : Block}
    {before after : Progress} (h : (block.desugar keywords).run before = (.ok out, after)) :
    ∃ accounts : List Account,
      accounts.map Account.definition = block.definitions keywords ∧
      out = block.fill keywords (accounts.map Account.call) ∧
      after.records = before.records ++ accounts.map Account.record ∧
      after.reports = before.reports ++ accounts.filterMap Account.report ∧
      (∀ (i : Nat) (account : Account), accounts[i]? = some account →
        account.Agrees
          (before.registry.sourceMap.withFlags ((block.definitions keywords).take i))) ∧
      (∀ i, (before.registry.sourceMap.withFlags ((block.definitions keywords).take i)).Extends
        before.registry.sourceMap) ∧
      (accounts.filterMap Account.report).length
        = (accounts.map Account.record).countP fun record => !record.hasScript := by
  rw [Block.desugar_eq, Pass.run_map_eq_ok] at h
  obtain ⟨calls, hrun, rfl⟩ := h
  obtain ⟨accounts, hdefinitions, rfl, -, hrecords, hreports, hagree⟩ := accounts_of_run hrun
  refine ⟨accounts, hdefinitions, rfl, hrecords, hreports, hagree, ?_, ?_⟩
  · exact fun i => SourceMap.extends_withFlags _ _
  · -- account by account, there is a report exactly if the record says that there is no script
    rw [List.length_filterMap_eq_countP, List.countP_map]
    refine List.countP_congr fun account hmem => ?_
    obtain ⟨i, hi⟩ := List.getElem?_of_mem hmem
    rw [(hagree i account hi).reported_iff]
    simp

theorem Block.desugar_accounts_agree_list :
    ∃ out after, (sampleDefinitions.desugar .default).run {} = (.ok out, after) ∧
      ∃ accounts : List Account,
        accounts.map Account.definition = sampleDefinitions.definitions .default ∧
        after.records = accounts.map Account.record ∧
        after.reports = accounts.filterMap Account.report ∧
        (∀ (i : Nat) (account : Account), accounts[i]? = some account →
          ∃ map, account.Agrees map) ∧
        (accounts.map Account.record).map (·.hasScript) = [true, false] := by
  obtain ⟨out, after, h, hflags⟩ :
      ∃ out after, (sampleDefinitions.desugar .default).run {} = (.ok out, after) ∧
        after.records.map (·.hasScript) = [true, false] := ⟨_, _, rfl, rfl⟩
  obtain ⟨accounts, hdefinitions, -, hrecords, hreports, hagree, -⟩ :=
    Block.desugar_accounts_agree h
  rw [hrecords] at hflags
  exact ⟨out, after, h, accounts, hdefinitions, hrecords, hreports,
    fun i account hi => ⟨_, hagree i account hi⟩, hflags⟩

end FlowDesugar
