import FlowDesugar.Proofs.Links

/-!
# Inputs are not lost

The canonical form of an input keeps all that was said. A flag stands before the designated
argument, and tells a name that was an identifier from a string that was written as one; whatever
else is written there, booleans and maps included, stands behind a flag of its own or in front of
it. So `Expr.restore` reads a declaration back from its canonical form, link by link and component
by component, with all handles.

A declaration that uses the canonical names itself cannot be told from a canonical form. The others
are `Expr.Uncoded`: none of their links has such a name, and none of the links of the components of
a tuple, at any depth.

* `Rule.restoreArgs_encodeArgs` — the arguments of one link;
* `Expr.canonicalize_input_lossless` — whole declarations, and with them that two declarations never
  have the same canonical form.
-/

namespace FlowDesugar

/-- The names of the canonical forms of inputs. -/
def Rule.inputNames : List String :=
  ["_in_val", "_in_env", "_in_file", "_in_path", "_in_each", "_in_stdin", "_in_tuple"]

/-- No link of the declaration has the name of a canonical form, nor has a link of a component of a
tuple. -/
inductive Expr.Uncoded : Expr → Prop
  | intro {e : Expr} (names : ∀ link ∈ e.links, link.method ∉ Rule.inputNames)
    (components : ∀ link ∈ e.links, link.method = "tuple" → ∀ arg ∈ link.args, Uncoded arg) :
    Uncoded e

/-! ### Reading back -/

/-- The rule for inputs that gives out a name. -/
def Rule.restoring? (name : String) : Option Rule :=
  all.find? fun rule => rule.inside = .input ∧ rule.canonical = name

/-- Takes the flag off the first argument: behind `true` stands the name of an identifier. -/
def unflag : List Expr → List Expr
  | .literal _ (.bool true) :: .literal loc (.text ident) :: args => .var loc ident :: args
  | _ :: arg :: args => arg :: args
  | args => args

/-- Takes the flag off the argument with the number `index`. -/
def unflagAt (index : Nat) (args : List Expr) : List Expr :=
  args.take index ++ unflag (args.drop index)

/-- The arguments that a rule has made into `args`. -/
def Rule.restoreArgs (rule : Rule) (args : List Expr) : List Expr :=
  match rule.treatment with
  | .encode .flagged slot => unflagAt (slot.index args) args
  | _ => args

mutual

/-- The declaration of an input, read back from its canonical form. -/
def Expr.restore : Expr → Expr
  | .call loc receiver method args =>
    let receiver := restoreReceiver receiver
    match Rule.restoring? method with
    | none => .call loc receiver method args
    | some rule =>
      match rule.treatment with
      | .components => .call loc receiver rule.method (restoreComponents args)
      | .encode _ _ => .call loc receiver rule.method (rule.restoreArgs args)
  | expr => expr

/-- The chain of a receiver, read back. -/
def restoreReceiver : Option Expr → Option Expr
  | none => none
  | some receiver => some receiver.restore

/-- The components of a tuple, read back. -/
def restoreComponents : List Expr → List Expr
  | [] => []
  | arg :: args => arg.restore :: restoreComponents args

end

/-! ### One link -/

theorem unflag_flagged (arg : Expr) (args : List Expr) :
    unflag (Encoding.flagged.apply arg ++ args) = arg :: args := by
  cases arg <;> rfl

theorem unflagAt_flagged (index : Nat) (args : List Expr) :
    unflagAt index (Encoding.flagged.applyAt index args) = args := by
  obtain hle | hlt := (Nat.lt_or_ge index args.length).symm
  · rw [Encoding.applyAt_of_le _ hle, unflagAt, List.take_of_length_le hle,
      List.drop_eq_nil_of_le hle]
    exact List.append_nil args
  · have htake : (args.take index).length = index := List.length_take_of_le (Nat.le_of_lt hlt)
    rw [Encoding.applyAt_of_lt _ hlt, List.append_assoc, unflagAt, List.take_left' htake,
      List.drop_left' htake, unflag_flagged, ← List.drop_eq_getElem_cons hlt,
      List.take_append_drop]

/-- The designated argument is found in the same place again, behind its flag: a leading map of
options stays first, and a flag is no map. -/
theorem Slot.index_flagged (slot : Slot) (args : List Expr) :
    slot.index (Encoding.flagged.applyAt (slot.index args) args) = slot.index args := by
  cases slot with
  | first => rfl
  | afterOptions =>
    cases args with
    | nil => rfl
    | cons arg args =>
      by_cases hmap : arg.isMap
      · have hindex : afterOptions.index (arg :: args) = 1 := if_pos hmap
        rw [hindex]
        cases args <;> exact if_pos hmap
      · have hindex : afterOptions.index (arg :: args) = 0 := if_neg hmap
        rw [hindex]
        cases arg with
        | map loc entries => exact absurd rfl hmap
        | _ => rfl

theorem Encoding.applyAt_untouched (index : Nat) (args : List Expr) :
    Encoding.untouched.applyAt index args = args := by
  obtain hle | hlt := (Nat.lt_or_ge index args.length).symm
  · exact applyAt_of_le _ hle
  · rw [applyAt_of_lt _ hlt, apply, List.append_assoc, List.singleton_append,
      ← List.drop_eq_getElem_cons hlt, List.take_append_drop]

/-- **The arguments of a link can be read back**, unless its rule drops the difference between a
name and an identifier. -/
theorem Rule.restoreArgs_encodeArgs {rule : Rule} (h : rule.treatment.encoding ≠ .name)
    (args : List Expr) : rule.restoreArgs (rule.encodeArgs args) = args := by
  unfold restoreArgs encodeArgs
  cases htreatment : rule.treatment with
  | components => exact Encoding.applyAt_untouched _ args
  | encode encoding slot =>
    rw [htreatment] at h
    cases encoding with
    | untouched => exact Encoding.applyAt_untouched _ args
    | name => exact absurd rfl h
    | flagged =>
      change unflagAt (slot.index (Encoding.flagged.applyAt (slot.index args) args)) _ = args
      rw [slot.index_flagged]
      exact unflagAt_flagged _ args

/-! ### The table -/

namespace Rule

theorem restoring?_eq_none {name : String} (h : name ∉ inputNames) : restoring? name = none := by
  have htable : ∀ rule ∈ all, rule.inside = .input → rule.canonical ∈ inputNames := by decide
  refine List.find?_eq_none.mpr fun rule hrule hfound => ?_
  obtain ⟨hinside, rfl⟩ := of_decide_eq_true hfound
  exact h (htable rule hrule hinside)

/-- A rule for inputs is found by the name it gives out. Tuples are the only calls with components,
and no identifier goes without a flag. -/
theorem of_find?_input {method : String} {rule : Rule} (h : find? .input method = some rule) :
    restoring? rule.canonical = some rule ∧ (rule.treatment = .components → method = "tuple") ∧
      rule.treatment.encoding ≠ .name := by
  have htable : ∀ rule ∈ all, rule.inside = .input →
      restoring? rule.canonical = some rule ∧
        (rule.treatment = .components → rule.method = "tuple") ∧
        rule.treatment.encoding ≠ .name := by decide
  have hrule := htable rule (mem_all_of_find? h) (inside_of_find? h)
  rwa [method_of_find? h] at hrule

end Rule

/-! ### Whole declarations -/

namespace Expr

namespace Uncoded

variable {loc : Handle} {receiver : Option Expr} {method : String} {args : List Expr}

theorem method_not_mem (h : (call loc receiver method args).Uncoded) :
    method ∉ Rule.inputNames := by
  cases h with
  | intro names _ => exact names ⟨loc, method, args⟩ List.mem_cons_self

theorem of_receiver {r : Expr} (h : (call loc (some r) method args).Uncoded) : r.Uncoded := by
  cases h with
  | intro names components =>
    exact .intro (fun link hlink => names link (List.mem_cons_of_mem _ hlink))
      fun link hlink => components link (List.mem_cons_of_mem _ hlink)

theorem of_mem_args (h : (call loc receiver method args).Uncoded) (htuple : method = "tuple") :
    ∀ arg ∈ args, arg.Uncoded := by
  cases h with
  | intro _ components => exact components ⟨loc, method, args⟩ List.mem_cons_self htuple

end Uncoded

theorem restoreComponents_eq (args : List Expr) : restoreComponents args = args.map restore := by
  induction args with
  | nil => rfl
  | cons arg args ih => rw [restoreComponents, ih, List.map_cons]

theorem restore_canonicalize {e : Expr} (h : e.Uncoded) : (e.canonicalize .input).restore = e := by
  induction e using inductionOnChildren with
  | node e ih =>
    cases e with
    | call loc receiver method args =>
      have hreceiver : restoreReceiver (receiver.map (canonicalize .input)) = receiver := by
        cases receiver with
        | none => rfl
        | some receiver => exact congrArg some (ih receiver List.mem_cons_self h.of_receiver)
      rw [canonicalize_call]
      cases hrule : Rule.find? .input method with
      | none =>
        -- the name is none of the table's, so that the link is taken as it is
        rw [Link.canonicalize_of_none hrule, restore, hreceiver,
          Rule.restoring?_eq_none h.method_not_mem]
      | some rule =>
        obtain ⟨hrestoring, htuple, hencoding⟩ := Rule.of_find?_input hrule
        rw [Link.canonicalize_of_some hrule, restore, hreceiver, hrestoring]
        cases htreatment : rule.treatment with
        | components =>
          have hargs : restoreComponents (args.map (canonicalize .input)) = args := by
            have hsame : ∀ arg ∈ args, (arg.canonicalize .input).restore = arg := fun arg harg =>
              ih arg (List.mem_append_right _ harg) (h.of_mem_args (htuple htreatment) arg harg)
            rw [restoreComponents_eq, List.map_map]
            exact (List.map_congr_left hsame).trans (List.map_id args)
          simp only [htreatment, Rule.canonicalArgs_of_components htreatment,
            Rule.inside_of_find? hrule, Rule.method_of_find? hrule, hargs]
        | encode encoding slot =>
          have hargs : rule.restoreArgs (rule.canonicalArgs args) = args := by
            unfold Rule.canonicalArgs
            rw [htreatment]
            exact Rule.restoreArgs_encodeArgs hencoding args
          simp only [htreatment, Rule.method_of_find? hrule, hargs]
    | _ => rfl

/-- **Inputs lose nothing in canonical form.** They can be read back, with all handles, and no two
of them have the same canonical form. -/
theorem canonicalize_input_lossless (e : Expr) (h : e.Uncoded) :
    (e.canonicalize .input).restore = e ∧
      ∀ e' : Expr, e'.Uncoded → e'.canonicalize .input = e.canonicalize .input → e' = e := by
  refine ⟨restore_canonicalize h, fun e' h' heq => ?_⟩
  rw [← restore_canonicalize h', heq, restore_canonicalize h]

/-- The input `tuple(val(id), file([:], reads)).from(channel)`, with other arguments in the place of
`id` and `reads`. -/
def sampleInput (id reads : Expr) : Expr :=
  .call (.entry 0) (some (.call (.entry 1) none "tuple"
    [.call (.entry 2) none "val" [id],
      .call (.entry 3) none "file" [.map (.entry 4) [], reads]])) "from" [.var (.entry 5) "channel"]

theorem uncoded_sampleInput (id reads : Expr) : (sampleInput id reads).Uncoded := by
  have hcomponent : ∀ loc method args, method ∉ Rule.inputNames → method ≠ "tuple" →
      (call loc none method args).Uncoded := by
    intro loc method args hname htuple
    exact .intro (List.forall_mem_singleton.mpr hname)
      (List.forall_mem_singleton.mpr fun heq => absurd heq htuple)
  have htuple : "tuple" ∉ Rule.inputNames := by decide
  refine .intro ?_ ?_
  · exact List.forall_mem_cons.mpr ⟨by decide, List.forall_mem_singleton.mpr htuple⟩
  · refine List.forall_mem_cons.mpr ⟨fun heq => absurd heq (by decide), ?_⟩
    refine List.forall_mem_singleton.mpr fun _ => List.forall_mem_cons.mpr ⟨?_, ?_⟩
    · exact hcomponent _ _ _ (by decide) (by decide)
    · exact List.forall_mem_singleton.mpr (hcomponent _ _ _ (by decide) (by decide))

/-- Identifiers are not taken for the strings of their names. -/
theorem canonicalize_input_lossless_tuple :
    let named := sampleInput (.var (.entry 6) "id") (.var (.entry 7) "reads")
    let quoted := sampleInput (.ofText (.entry 6) "id") (.ofText (.entry 7) "reads")
    named.Uncoded ∧ quoted.Uncoded ∧ (named.canonicalize .input).restore = named ∧
      quoted.canonicalize .input ≠ named.canonicalize .input := by
  intro named quoted
  have hnamed : named.Uncoded := uncoded_sampleInput _ _
  have hquoted : quoted.Uncoded := uncoded_sampleInput _ _
  obtain ⟨hrestored, hinjective⟩ := canonicalize_input_lossless named hnamed
  refine ⟨hnamed, hquoted, hrestored, fun heq => ?_⟩
  have hsame : quoted = named := hinjective quoted hquoted heq
  simp [named, quoted, sampleInput, ofText] at hsame

end Expr

end FlowDesugar
