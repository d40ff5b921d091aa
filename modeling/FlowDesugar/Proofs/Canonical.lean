import FlowDesugar.Proofs.Body
import FlowDesugar.Proofs.Definitions

/-!
# One definition at a time

What putting a single definition into canonical form does, to the tree and to the progress of the
pass. There are three cases, and one equation says all about each:

* `Definition.canonical_run_of_malformed` — a definition without an inner call ends the pass and
  leaves the progress as it is;
* `Definition.canonical_run_of_body` — the inner call ends in a thunk, which is the body;
* `Definition.canonical_run_of_noBody` — it does not, and the definition is reported.

A definition that gets a canonical form gets it in one of the last two (`Definition.CanonicalRun`).
`Definition.Step` sums up what the two well-formed cases have in common. Whether a definition has a
script is decided by `Definition.problem?`, which looks at the definition as it stands in the tree;
the record, the report and the flag in the canonical call all come from it.
-/

namespace FlowDesugar

/-- The report of a problem, with the position that `map` has for it; line and column are zero if
there is none. -/
def Report.ofProblem (map : SourceMap) (problem : ScriptError) : Report :=
  let position := (map.position? problem.loc).getD ⟨0, 0⟩
  ⟨problem.message, position.line, position.column⟩

/-- The source map after the location of a script flag has been added for a definition at `loc`. -/
def SourceMap.withFlag (map : SourceMap) (loc : Handle) : SourceMap :=
  (map.annotated loc "script mode").2

namespace Definition

/-- The name of a definition: the method of its inner call. -/
def name? (d : Definition) : Option String :=
  (inner? d.args).map fun inner => inner.2.1

/-- Whether the last of the inner arguments is a thunk, and so the body. -/
def endsInThunk (inner : List Expr) : Bool :=
  inner.getLast?.any Expr.isThunk

/-- Why a definition has no script, if it has none. -/
def problem? (d : Definition) : Option ScriptError :=
  match inner? d.args with
  | none => none
  | some (_, name, inner) =>
    match inner.getLast? with
    | some (.thunk _ body) => body.scriptProblem? d.loc
    | _ => some (.missingBody d.loc name)

/-- The call `call` is a canonical form of the definition `d` in which the script flag is `value`:
the flag stands right before the body, or last if there is none. -/
def FlagIs (d : Definition) (value : Bool) (call : Expr) : Prop :=
  ∃ nameLoc name inner front flagLoc, inner? d.args = some (nameLoc, name, inner) ∧
    if endsInThunk inner then
      ∃ body, body.isThunk ∧
        call = .call d.loc none d.keyword (front ++ [.ofBool flagLoc value, body])
    else call = .call d.loc none d.keyword (front ++ [.ofBool flagLoc value])

/-! ### Arguments -/

theorem optionCount_le_length (args : List Expr) : optionCount args ≤ args.length := by
  cases args with
  | nil => exact Nat.le_refl 0
  | cons arg args =>
    rw [optionCount, List.length_cons]
    split <;> omega

/-- The name of a definition goes before its body. -/
theorem withName_append_thunk (init : List Expr) (bodyLoc : Handle) (body : Block) (name : Expr) :
    withName (init ++ [.thunk bodyLoc body]) name
      = withName init name ++ [.thunk bodyLoc body] := by
  cases init with
  | nil => rfl
  | cons arg init =>
    unfold withName
    have hcount : optionCount (arg :: init ++ [.thunk bodyLoc body])
        = optionCount (arg :: init) := rfl
    have hle := optionCount_le_length (arg :: init)
    rw [hcount, List.take_append_of_le_length hle, List.drop_append_of_le_length hle]
    simp

/-- The last argument next to the name is a thunk only if the last one without it is. -/
theorem isThunk_of_getLast?_withName {inner : List Expr} {nameLoc : Handle} {name : String}
    {last : Expr} (hlast : (withName inner (.ofText nameLoc name)).getLast? = some last)
    (ht : last.isThunk) : endsInThunk inner := by
  unfold withName at hlast
  rw [List.getLast?_append, List.getLast?_cons] at hlast
  cases hdrop : (inner.drop (optionCount inner)).getLast? with
  | none =>
    -- the name itself stands last
    rw [hdrop] at hlast
    obtain rfl : Expr.ofText nameLoc name = last := by simpa using hlast
    cases ht
  | some e =>
    rw [hdrop] at hlast
    obtain rfl : e = last := by simpa using hlast
    have hinner : inner.getLast? = some e := by
      rw [← List.take_append_drop (optionCount inner) inner, List.getLast?_append, hdrop]
      rfl
    unfold endsInThunk
    rw [hinner]
    exact ht

theorem withScriptFlag_append (args : List Expr) (last flag : Expr) :
    withScriptFlag (args ++ [last]) flag = args ++ [flag, last] := by
  unfold withScriptFlag
  simp

/-- Inner arguments that end in a thunk, taken apart. -/
theorem eq_append_of_endsInThunk {inner : List Expr} (h : endsInThunk inner) :
    ∃ init bodyLoc body, inner = init ++ [.thunk bodyLoc body] := by
  unfold endsInThunk at h
  cases hlast : inner.getLast? with
  | none => rw [hlast] at h; cases h
  | some last =>
    rw [hlast] at h
    obtain ⟨init, rfl⟩ := List.getLast?_eq_some_iff.mp hlast
    cases last with
    | thunk bodyLoc body => exact ⟨init, bodyLoc, body, rfl⟩
    | _ => cases h

theorem args_of_inner? {args inner : List Expr} {nameLoc : Handle} {name : String}
    (h : inner? args = some (nameLoc, name, inner)) : args = [.call nameLoc none name inner] := by
  unfold inner? at h
  split at h
  · cases h
    rfl
  · cases h

/-! ### The three cases -/

variable {d : Definition}

/-- A definition without an inner call ends the pass. -/
theorem canonical_run_of_malformed (h : inner? d.args = none) (before : Progress) :
    d.canonical.run before = (.error ⟨d.loc, d.keyword⟩, before) := by
  unfold canonical reshape
  rw [h]
  rfl

/-- A definition with a body. -/
theorem canonical_run_of_body {nameLoc bodyLoc : Handle} {name : String} {init : List Expr}
    {body : Block} (h : inner? d.args = some (nameLoc, name, init ++ [.thunk bodyLoc body]))
    (before : Progress) :
    let map := before.registry.sourceMap
    let scripted := (scriptedBody before.registry.scopes d.loc body).1
    d.canonical.run before =
      (.ok (.call d.loc none d.keyword
          (withName init (.ofText nameLoc name) ++
            [.ofBool (.entry map.size) scripted.hasScript, .thunk bodyLoc scripted.block])),
        { registry :=
            { sourceMap := map.withFlag d.loc
              scopes := (scriptedBody before.registry.scopes d.loc body).2 }
          reports := before.reports ++ (scripted.problem.map (Report.ofProblem map)).toList
          records := before.records ++ [⟨d.keyword, name, d.loc, scripted.hasScript⟩] }) := by
  intro map scripted
  unfold canonical reshape
  rw [h]
  simp only [withName_append_thunk]
  have hargs : (withName init (.ofText nameLoc name) ++ [Expr.thunk bodyLoc body]).getLast?
      = some (Expr.thunk bodyLoc body) := List.getLast?_concat
  simp only [canonicalizeArgs, hargs, bind_assoc]
  rw [Pass.run_bind_of_ok (canonicalizeBody_run d.loc body before)]
  simp only [List.dropLast_concat, withScriptFlag_append]
  cases hproblem : (scriptedBody before.registry.scopes d.loc body).1.problem with
  | none =>
    rw [Option.map_none, Option.toList_none, List.append_nil]
    rfl
  | some problem => rfl

/-- A definition without a body. -/
theorem canonical_run_of_noBody {nameLoc : Handle} {name : String} {inner : List Expr}
    (h : inner? d.args = some (nameLoc, name, inner)) (hbody : ¬ endsInThunk inner)
    (before : Progress) :
    let map := before.registry.sourceMap
    d.canonical.run before =
      (.ok (.call d.loc none d.keyword
          (withName inner (.ofText nameLoc name) ++ [.ofBool (.entry map.size) false])),
        { registry := { before.registry with sourceMap := map.withFlag d.loc }
          reports := before.reports ++ [.ofProblem map (.missingBody d.loc name)]
          records := before.records ++ [⟨d.keyword, name, d.loc, false⟩] }) := by
  intro map
  have hargs : ∀ bodyLoc body,
      (withName inner (.ofText nameLoc name)).getLast? ≠ some (.thunk bodyLoc body) :=
    fun bodyLoc body hlast => hbody (isThunk_of_getLast?_withName hlast rfl)
  unfold canonical reshape
  rw [h]
  -- `hargs` rules the case of a body out
  simp only [canonicalizeArgs]
  rfl

/-- The two ways in which a definition gets a canonical form. -/
inductive CanonicalRun (d : Definition) (before : Progress) : Expr → Progress → Prop
  | body {nameLoc bodyLoc : Handle} {name : String} {init : List Expr} {body : Block} :
    inner? d.args = some (nameLoc, name, init ++ [.thunk bodyLoc body]) →
    CanonicalRun d before
      (.call d.loc none d.keyword
        (withName init (.ofText nameLoc name) ++
          [.ofBool (.entry before.registry.sourceMap.size)
            (scriptedBody before.registry.scopes d.loc body).1.hasScript,
           .thunk bodyLoc (scriptedBody before.registry.scopes d.loc body).1.block]))
      { registry :=
          { sourceMap := before.registry.sourceMap.withFlag d.loc
            scopes := (scriptedBody before.registry.scopes d.loc body).2 }
        reports := before.reports ++
          ((scriptedBody before.registry.scopes d.loc body).1.problem.map
            (Report.ofProblem before.registry.sourceMap)).toList
        records := before.records ++
          [⟨d.keyword, name, d.loc,
            (scriptedBody before.registry.scopes d.loc body).1.hasScript⟩] }
  | noBody {nameLoc : Handle} {name : String} {inner : List Expr} :
    inner? d.args = some (nameLoc, name, inner) → ¬ endsInThunk inner →
    CanonicalRun d before
      (.call d.loc none d.keyword
        (withName inner (.ofText nameLoc name) ++
          [.ofBool (.entry before.registry.sourceMap.size) false]))
      { registry :=
          { before.registry with sourceMap := before.registry.sourceMap.withFlag d.loc }
        reports := before.reports ++
          [.ofProblem before.registry.sourceMap (.missingBody d.loc name)]
        records := before.records ++ [⟨d.keyword, name, d.loc, false⟩] }

/-- A definition that gets a canonical form gets it in one of the two ways. -/
theorem canonicalRun_of_run {before after : Progress} {call : Expr}
    (h : d.canonical.run before = (.ok call, after)) : CanonicalRun d before call after := by
  cases hinner : inner? d.args with
  | none =>
    rw [canonical_run_of_malformed hinner] at h
    cases h
  | some parts =>
    obtain ⟨nameLoc, name, inner⟩ := parts
    by_cases hbody : endsInThunk inner
    · obtain ⟨init, bodyLoc, body, rfl⟩ := eq_append_of_endsInThunk hbody
      rw [canonical_run_of_body hinner] at h
      cases h
      exact .body hinner
    · rw [canonical_run_of_noBody hinner hbody] at h
      cases h
      exact .noBody hinner hbody

/-! ### What the well-formed cases have in common -/

theorem endsInThunk_append (init : List Expr) (bodyLoc : Handle) (body : Block) :
    endsInThunk (init ++ [.thunk bodyLoc body]) := by
  unfold endsInThunk
  rw [List.getLast?_concat]
  rfl

theorem name?_of_inner? {nameLoc : Handle} {name : String} {inner : List Expr}
    (h : inner? d.args = some (nameLoc, name, inner)) : d.name? = some name := by
  unfold name?
  rw [h]
  rfl

theorem problem?_of_body {nameLoc bodyLoc : Handle} {name : String} {init : List Expr}
    {body : Block} (h : inner? d.args = some (nameLoc, name, init ++ [.thunk bodyLoc body])) :
    d.problem? = body.scriptProblem? d.loc := by
  unfold problem?
  rw [h]
  simp only [List.getLast?_concat]

theorem problem?_of_noBody {nameLoc : Handle} {name : String} {inner : List Expr}
    (h : inner? d.args = some (nameLoc, name, inner)) (hbody : ¬ endsInThunk inner) :
    d.problem? = some (.missingBody d.loc name) := by
  unfold problem?
  rw [h]
  simp only
  split
  · next bodyLoc body hlast =>
    refine absurd ?_ hbody
    unfold endsInThunk
    rw [hlast]
    rfl
  · rfl

/-- What putting the definition `d` into canonical form, as `call`, does to the progress. -/
structure Step (d : Definition) (before : Progress) (call : Expr) (after : Progress) : Prop where
  /-- One location is added, for the script flag. -/
  sourceMap_eq : after.registry.sourceMap = before.registry.sourceMap.withFlag d.loc
  /-- The definition is reported if it has no script, at the position that is known by then. -/
  reports_eq : after.reports = before.reports
    ++ (d.problem?.map (Report.ofProblem before.registry.sourceMap)).toList
  /-- It is recorded under its name. -/
  records_eq : ∃ name, d.name? = some name ∧
    after.records = before.records ++ [⟨d.keyword, name, d.loc, d.problem?.isNone⟩]
  /-- Its canonical form holds the script flag. -/
  flag : d.FlagIs d.problem?.isNone call

/-- **One definition.** Whenever putting a definition into canonical form has a result, it is a
step. -/
theorem step_of_canonical_run {before after : Progress} {call : Expr}
    (h : d.canonical.run before = (.ok call, after)) : Step d before call after := by
  cases canonicalRun_of_run h with
  | @body nameLoc bodyLoc name init body hinner =>
    -- the run finds the problem that is read off the body as it stands in the tree
    have hproblem : (scriptedBody before.registry.scopes d.loc body).1.problem = d.problem? := by
      rw [scriptedBody_problem, problem?_of_body hinner]
    have hflag : (scriptedBody before.registry.scopes d.loc body).1.hasScript
        = d.problem?.isNone := congrArg Option.isNone hproblem
    rw [hproblem, hflag]
    refine ⟨rfl, rfl, ⟨name, name?_of_inner? hinner, rfl⟩, ?_⟩
    refine ⟨nameLoc, name, _, withName init (.ofText nameLoc name),
      .entry before.registry.sourceMap.size, hinner, ?_⟩
    rw [if_pos (endsInThunk_append init bodyLoc body)]
    exact ⟨_, rfl, rfl⟩
  | @noBody nameLoc name inner hinner hbody =>
    have hproblem := problem?_of_noBody hinner hbody
    refine ⟨rfl, ?_, ⟨name, name?_of_inner? hinner, ?_⟩, ?_⟩
    · rw [hproblem]
      rfl
    · rw [hproblem]
      rfl
    · refine ⟨nameLoc, name, inner, withName inner (.ofText nameLoc name),
        .entry before.registry.sourceMap.size, hinner, ?_⟩
      rw [if_neg hbody, hproblem]
      rfl

end Definition

end FlowDesugar
