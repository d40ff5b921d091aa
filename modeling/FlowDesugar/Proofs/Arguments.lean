import FlowDesugar.Proofs.Canonical

/-!
# The arguments of a canonical call

The canonical form of `keyword(name(inner))` has the inner arguments with two more among them, the
name of the definition and the script flag. The place of the name is found in the inner arguments,
and that of the flag in the arguments with the name among them. `Definition.Arranged` says where
both end up in terms of the inner arguments alone, and that nothing else moves:

* `Definition.reshape_arranges` — the law of the arguments, for every list of inner arguments.

A definition with a body and one without differ only in what follows the flag, so that both are
instances of `Definition.arranged_append`.
-/

namespace FlowDesugar

namespace Definition

/-- The place of the name: after a leading map of options, or first. -/
def nameIndex (inner : List Expr) : Nat :=
  if inner.head?.any Expr.isMap then 1 else 0

/-- The place of the script flag: right before the last argument if the inner arguments end in a
thunk, and last otherwise. -/
def flagIndex (inner args : List Expr) : Nat :=
  if endsInThunk inner then args.length - 2 else args.length - 1

/-- The arguments `args` are the inner arguments with a name and a script flag among them; without
these two, they are `kept`. -/
structure Arranged (inner : List Expr) (name flag : Expr) (kept args : List Expr) : Prop where
  length_eq : args.length = inner.length + 2
  /-- A map of options stays first. -/
  options_first : ∀ options rest, inner = options :: rest → options.isMap → args[0]? = some options
  name_at : args[nameIndex inner]? = some name
  flag_at : args[flagIndex inner args]? = some flag
  kept_eq : (args.eraseIdx (flagIndex inner args)).eraseIdx (nameIndex inner) = kept

/-- What stays of the inner arguments of the definition at `loc`, and the value of the script flag.
Only a thunk at the end changes: its block gets other statements and keeps its scope. -/
inductive Kept (loc : Handle) (before : Progress) : List Expr → Bool → List Expr → Prop
  | noBody {inner : List Expr} : ¬ endsInThunk inner → Kept loc before inner false inner
  | body {init : List Expr} {bodyLoc : Handle} {body : Block} {scripted : Scripted}
    {middle : Progress} : (canonicalizeBody loc body).run before = (.ok scripted, middle) →
    scripted.block.scope = body.scope →
    Kept loc before (init ++ [.thunk bodyLoc body]) scripted.hasScript
      (init ++ [.thunk bodyLoc scripted.block])

/-! ### The place of the name -/

theorem nameIndex_eq_optionCount (inner : List Expr) : nameIndex inner = optionCount inner := by
  cases inner with
  | nil => rfl
  | cons first rest => rfl

theorem length_withName (args : List Expr) (name : Expr) :
    (withName args name).length = args.length + 1 := by
  have hle := optionCount_le_length args
  unfold withName
  rw [List.length_append, List.length_cons, List.length_take, List.length_drop]
  omega

theorem getElem?_withName (args : List Expr) (name : Expr) :
    (withName args name)[nameIndex args]? = some name := by
  have htake : (args.take (optionCount args)).length = optionCount args :=
    List.length_take_of_le (optionCount_le_length args)
  unfold withName
  rw [nameIndex_eq_optionCount, List.getElem?_append_right (Nat.le_of_eq htake), htake,
    Nat.sub_self]
  rfl

/-- Without the name, the arguments are what they were. -/
theorem eraseIdx_withName (args : List Expr) (name : Expr) :
    (withName args name).eraseIdx (nameIndex args) = args := by
  have htake : (args.take (optionCount args)).length = optionCount args :=
    List.length_take_of_le (optionCount_le_length args)
  unfold withName
  rw [nameIndex_eq_optionCount, List.eraseIdx_append_of_length_le (Nat.le_of_eq htake), htake,
    Nat.sub_self, List.eraseIdx_cons_zero, List.take_append_drop]

theorem nameIndex_lt_length_withName (args : List Expr) (name : Expr) :
    nameIndex args < (withName args name).length := by
  rw [length_withName, nameIndex_eq_optionCount]
  exact Nat.lt_succ_of_le (optionCount_le_length args)

theorem getElem?_withName_zero {options : Expr} (h : options.isMap) (rest : List Expr)
    (name : Expr) : (withName (options :: rest) name)[0]? = some options := by
  have hcount : optionCount (options :: rest) = 1 := if_pos h
  unfold withName
  rw [hcount]
  rfl

/-- What comes after the first arguments does not move the name, unless it is a map. -/
theorem nameIndex_append (front : List Expr) {tail : List Expr} (htail : ∀ e ∈ tail, ¬ e.isMap) :
    nameIndex (front ++ tail) = nameIndex front := by
  cases front with
  | cons first front => rfl
  | nil =>
    cases tail with
    | nil => rfl
    | cons e tail => exact if_neg (htail e List.mem_cons_self)

/-! ### Both together -/

/-- The name goes among `front` and the flag after it. What follows the flag is the body, or
nothing. -/
theorem arranged_append (front : List Expr) {tail tail' : List Expr} {name flag : Expr}
    (htail : ∀ e ∈ tail, ¬ e.isMap) (hlength : tail'.length = tail.length)
    (hflag : flagIndex (front ++ tail) (withName front name ++ flag :: tail')
      = (withName front name).length) :
    Arranged (front ++ tail) name flag (front ++ tail')
      (withName front name ++ flag :: tail') where
  length_eq := by
    rw [List.length_append, List.length_append, List.length_cons, length_withName, hlength]
    omega
  options_first := by
    intro options rest heq hmap
    cases front with
    | nil =>
      -- what follows the flag would start with a map
      rw [List.nil_append] at heq
      exact absurd hmap (htail options (heq ▸ List.mem_cons_self))
    | cons first front =>
      obtain ⟨rfl, -⟩ := List.cons.inj heq
      have hpos : 0 < (withName (first :: front) name).length := by
        rw [length_withName]
        exact Nat.succ_pos _
      rw [List.getElem?_append_left hpos, getElem?_withName_zero hmap]
  name_at := by
    rw [nameIndex_append front htail,
      List.getElem?_append_left (nameIndex_lt_length_withName front name), getElem?_withName]
  flag_at := by
    rw [hflag, List.getElem?_append_right (Nat.le_refl _), Nat.sub_self]
    rfl
  kept_eq := by
    -- first the flag goes, which stands behind everything the name was put among, then the name
    rw [hflag, List.eraseIdx_append_of_length_le (Nat.le_refl _), Nat.sub_self,
      List.eraseIdx_cons_zero, nameIndex_append front htail,
      List.eraseIdx_append_of_lt_length (nameIndex_lt_length_withName front name),
      eraseIdx_withName]

/-- With a body, the flag stands right before it. -/
theorem arranged_body (front : List Expr) (bodyLoc : Handle) (body body' : Block)
    (name flag : Expr) :
    Arranged (front ++ [.thunk bodyLoc body]) name flag (front ++ [.thunk bodyLoc body'])
      (withName front name ++ [flag, .thunk bodyLoc body']) := by
  refine arranged_append front (List.forall_mem_singleton.mpr nofun) rfl ?_
  unfold flagIndex
  rw [if_pos (endsInThunk_append front bodyLoc body), List.length_append]
  rfl

/-- Without a body, the flag stands last. -/
theorem arranged_noBody {inner : List Expr} (h : ¬ endsInThunk inner) (name flag : Expr) :
    Arranged inner name flag inner (withName inner name ++ [flag]) := by
  have hflag : flagIndex (inner ++ []) (withName inner name ++ [flag])
      = (withName inner name).length := by
    unfold flagIndex
    rw [List.append_nil, if_neg h, List.length_append]
    rfl
  have harranged : Arranged (inner ++ []) name flag (inner ++ []) (withName inner name ++ [flag]) :=
    arranged_append inner (fun _ he => nomatch he) rfl hflag
  rwa [List.append_nil] at harranged

/-- **The arguments of a canonical call.** Whatever the inner arguments, the canonical form has two
more: the name, first or after a leading map of options, and the script flag, right before a thunk
at the end or else last. Without these two the arguments are the inner ones, one by one, but for the
statements of a thunk at the end. -/
theorem reshape_arranges (loc nameLoc : Handle) (keyword name : String) (inner : List Expr)
    (before : Progress) :
    ∃ args flagLoc hasScript kept after,
      (reshape loc keyword [.call nameLoc none name inner]).run before
        = (.ok (.call loc none keyword args), after) ∧
      Arranged inner (.ofText nameLoc name) (.ofBool flagLoc hasScript) kept args ∧
      Kept loc before inner hasScript kept := by
  let d : Definition := ⟨loc, keyword, [.call nameLoc none name inner]⟩
  have hinner : inner? d.args = some (nameLoc, name, inner) := rfl
  by_cases hbody : endsInThunk inner
  · obtain ⟨init, bodyLoc, body, rfl⟩ := eq_append_of_endsInThunk hbody
    have hrun := canonical_run_of_body hinner before
    have hscope := scriptedBody_scope before.registry.scopes loc body
    -- the block in the call is the one that the run over the body gives
    have hkept : Kept loc before (init ++ [.thunk bodyLoc body]) _ _ :=
      .body (canonicalizeBody_run loc body before) hscope
    exact ⟨_, _, _, _, _, hrun, arranged_body init bodyLoc body _ _ _, hkept⟩
  · have hrun := canonical_run_of_noBody hinner hbody before
    exact ⟨_, _, _, _, _, hrun, arranged_noBody hbody _ _, .noBody hbody⟩

end Definition

end FlowDesugar
