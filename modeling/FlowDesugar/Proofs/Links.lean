import FlowDesugar.Proofs.Everywhere

/-!
# The links of a declaration

A declaration is a chain of calls, `file(x).into(y)`: its links are the calls, and its anchor is the
first receiver that is no call, if the innermost call has a receiver at all. Canonical forms are
made link by link, so what is said of one link carries over to the chain.

* `Rule.find?_eq` — the rules, by what they have in common;
* `Expr.canonicalize_call` — the canonical form of a call, by that of its link;
* `Expr.links_canonicalize` and `Expr.anchor?_canonicalize` — the same for the chain;
* `Expr.inductionOnLinks` — what passes from the arguments of all links to a chain holds of every
  expression; the components of a tuple are such arguments;
* `Restates` and `Expr.canonicalize_keeps_shape` — the canonical form keeps the shape of a
  declaration, and no identifier stands where one was designated.
-/

namespace FlowDesugar

/-- Whether an expression is a call. -/
def Expr.isCall : Expr → Bool
  | .call _ _ _ _ => true
  | _ => false

/-- A link of a chain: a call without its receiver. -/
structure Link where
  loc : Handle
  method : String
  args : List Expr

mutual

/-- The links of a chain, from the outermost call inwards. What is no call has none. -/
def Expr.links : Expr → List Link
  | .call loc receiver method args => ⟨loc, method, args⟩ :: linksOfReceiver receiver
  | _ => []

/-- The links of the chain of a receiver. -/
def linksOfReceiver : Option Expr → List Link
  | none => []
  | some receiver => receiver.links

end

mutual

/-- What a chain is called on: the first receiver that is no call. There is none if the innermost
call has no receiver. -/
def Expr.anchor? : Expr → Option Expr
  | .call _ receiver _ _ => anchorOfReceiver? receiver
  | expr => some expr

/-- What the chain of a receiver is called on. -/
def anchorOfReceiver? : Option Expr → Option Expr
  | none => none
  | some receiver => receiver.anchor?

end

/-- The arguments of a link in canonical form, under the rule for its method. -/
def Rule.canonicalArgs (rule : Rule) (args : List Expr) : List Expr :=
  match rule.treatment with
  | .components => args.map (Expr.canonicalize rule.inside)
  | .encode _ _ => rule.encodeArgs args

/-- The canonical form of a link. -/
def Link.canonicalize (inside : Section) (link : Link) : Link :=
  match Rule.find? inside link.method with
  | none => link
  | some rule => ⟨link.loc, rule.canonical, rule.canonicalArgs link.args⟩

/-! ### The table -/

namespace Section

/-- The methods that have a rule in a section. -/
def methods : Section → List String
  | input => ["val", "env", "file", "path", "each", "stdin", "tuple"]
  | output => ["val", "env", "file", "path", "stdout", "tuple", "into"]
  | share => ["val", "file", "into"]
  | plain | exec => []

/-- What the names of canonical calls begin with in a section. -/
def mark : Section → String
  | input => "_in_"
  | output => "_out_"
  | share => "_share_"
  | plain | exec => ""

end Section

namespace Rule

variable {inside : Section} {method : String} {rule : Rule}

theorem mem_all_of_find? (h : find? inside method = some rule) : rule ∈ all :=
  List.mem_of_find?_eq_some h

theorem inside_of_find? (h : find? inside method = some rule) : rule.inside = inside := by
  have hfound := List.find?_some h
  exact (of_decide_eq_true hfound).1

theorem method_of_find? (h : find? inside method = some rule) : rule.method = method := by
  have hfound := List.find?_some h
  exact (of_decide_eq_true hfound).2

/-- The rule for a method of a section. The canonical call bears the mark of the section, but for
`into`. A tuple goes by its components, and the standard streams stay as they are. Otherwise an
identifier becomes a name, with a flag unless it is an output; files and paths can have options
before it. -/
def regular (inside : Section) (method : String) : Rule where
  inside := inside
  method := method
  canonical := if method = "into" then "into" else inside.mark ++ method
  treatment :=
    if method = "tuple" then .components
    else if method = "stdin" ∨ method = "stdout" then .encode .untouched .first
    else .encode (if inside = .output ∨ method = "into" then .name else .flagged)
      (if method = "file" ∨ method = "path" then .afterOptions else .first)

theorem method_mem_of_mem_all : ∀ rule ∈ all, rule.method ∈ rule.inside.methods := by
  decide

theorem find?_of_mem_methods (inside : Section) :
    ∀ method ∈ inside.methods, find? inside method = some (regular inside method) := by
  cases inside <;> decide

/-- **The table as a whole.** -/
theorem find?_eq (inside : Section) (method : String) :
    find? inside method
      = if method ∈ inside.methods then some (regular inside method) else none := by
  by_cases hmethod : method ∈ inside.methods
  · rw [if_pos hmethod, find?_of_mem_methods inside method hmethod]
  · rw [if_neg hmethod, find?, List.find?_eq_none]
    intro rule hrule hfound
    obtain ⟨rfl, rfl⟩ := of_decide_eq_true hfound
    exact hmethod (method_mem_of_mem_all rule hrule)

end Rule

namespace Link

variable {inside : Section} {link : Link} {rule : Rule}

theorem canonicalize_of_none (h : Rule.find? inside link.method = none) :
    link.canonicalize inside = link := by
  unfold canonicalize
  rw [h]

theorem canonicalize_of_some (h : Rule.find? inside link.method = some rule) :
    link.canonicalize inside = ⟨link.loc, rule.canonical, rule.canonicalArgs link.args⟩ := by
  unfold canonicalize
  rw [h]

@[simp] theorem loc_canonicalize (inside : Section) (link : Link) :
    (link.canonicalize inside).loc = link.loc := by
  unfold canonicalize
  split <;> rfl

end Link

/-! ### Link by link -/

namespace Expr

/-- **The canonical form of a call** is that of its link, on the canonical form of its receiver. -/
theorem canonicalize_call (inside : Section) (loc : Handle) (receiver : Option Expr)
    (method : String) (args : List Expr) :
    (call loc receiver method args).canonicalize inside =
      call loc (receiver.map (canonicalize inside))
        (Link.canonicalize inside ⟨loc, method, args⟩).method
        (Link.canonicalize inside ⟨loc, method, args⟩).args := by
  have hreceiver : canonicalizeReceiver inside receiver = receiver.map (canonicalize inside) := by
    cases receiver <;> rfl
  rw [canonicalize, hreceiver]
  cases hrule : Rule.find? inside method with
  | none => rw [Link.canonicalize_of_none hrule]
  | some rule =>
    rw [Link.canonicalize_of_some hrule, Rule.canonicalArgs, Rule.inside_of_find? hrule]
    cases htreatment : rule.treatment with
    | components => simp only [htreatment, canonicalizeComponents_eq]
    | encode encoding slot => simp only [htreatment]

/-- What is no call is in canonical form. -/
theorem canonicalize_of_not_isCall {inside : Section} {e : Expr} (h : ¬ e.isCall) :
    e.canonicalize inside = e := by
  cases e with
  | call loc receiver method args => exact absurd rfl h
  | _ => rfl

/-- The links of a canonical form are the canonical forms of the links. -/
theorem links_canonicalize (inside : Section) (e : Expr) :
    (e.canonicalize inside).links = e.links.map (Link.canonicalize inside) := by
  induction e using inductionOnChildren with
  | node e ih =>
    cases e with
    | call loc receiver method args =>
      have hreceiver : linksOfReceiver (receiver.map (canonicalize inside))
          = (linksOfReceiver receiver).map (Link.canonicalize inside) := by
        cases receiver with
        | none => rfl
        | some receiver => exact ih receiver List.mem_cons_self
      have hloc := Link.loc_canonicalize inside ⟨loc, method, args⟩
      rw [canonicalize_call, links, links, hreceiver, List.map_cons]
      exact congrArg (fun l => Link.mk l _ _ :: _) hloc.symm
    | _ => rfl

theorem anchor?_canonicalize (inside : Section) (e : Expr) :
    (e.canonicalize inside).anchor? = e.anchor? := by
  induction e using inductionOnChildren with
  | node e ih =>
    cases e with
    | call loc receiver method args =>
      rw [canonicalize_call, anchor?, anchor?]
      cases receiver with
      | none => rfl
      | some receiver => exact ih receiver List.mem_cons_self
    | _ => rfl

/-- **Induction over declarations.** What passes from the arguments of all links of a chain to the
chain holds of every expression. -/
theorem inductionOnLinks {motive : Expr → Prop}
    (chain : ∀ e, (∀ link ∈ e.links, ∀ arg ∈ link.args, motive arg) → motive e) (e : Expr) :
    motive e := by
  -- a receiver passes on what holds of the arguments of its own links, next to the motive itself
  have harguments : ∀ e : Expr, ∀ link ∈ e.links, ∀ arg ∈ link.args, motive arg := by
    intro e
    induction e using inductionOnChildren with
    | node e ih =>
      cases e with
      | call loc receiver method args =>
        refine List.forall_mem_cons.mpr ⟨fun arg harg => ?_, ?_⟩
        · exact chain arg (ih arg (List.mem_append_right _ harg))
        · cases receiver with
          | none => exact List.forall_mem_nil _
          | some receiver => exact ih receiver List.mem_cons_self
      | _ => exact List.forall_mem_nil _
  exact chain e (harguments e)

end Expr

/-! ### The designated argument -/

/-- The arguments `args'` are `args` with the designated one, which has the number `index`,
encoded. -/
structure Encoding.Replaces (encoding : Encoding) (index : Nat) (args args' : List Expr) :
    Prop where
  /-- Every other argument stays, in order. No bare identifier stands in the place of the designated
  one, unless the rule leaves it alone. -/
  others : ∃ placed, args' = args.take index ++ placed ++ args.drop (index + 1) ∧
    (encoding ≠ .untouched → ∀ e ∈ placed, e.identifier? = none)
  /-- A flag is the only new argument. -/
  length : args'.length
    = args.length + if encoding = .flagged ∧ index < args.length then 1 else 0

namespace Encoding

/-- There may be no designated argument. -/
theorem applyAt_of_le (encoding : Encoding) {index : Nat} {args : List Expr}
    (h : args.length ≤ index) : encoding.applyAt index args = args := by
  unfold applyAt
  rw [List.getElem?_eq_none_iff.mpr h]

theorem applyAt_of_lt (encoding : Encoding) {index : Nat} {args : List Expr}
    (h : index < args.length) :
    encoding.applyAt index args
      = args.take index ++ encoding.apply args[index] ++ args.drop (index + 1) := by
  unfold applyAt
  rw [List.getElem?_eq_getElem h]

theorem identifier?_of_mem_apply {encoding : Encoding} (h : encoding ≠ .untouched) (arg : Expr) :
    ∀ e ∈ encoding.apply arg, e.identifier? = none := by
  cases encoding with
  | untouched => exact absurd rfl h
  | name => cases arg <;> exact List.forall_mem_singleton.mpr rfl
  | flagged =>
    cases arg <;> exact List.forall_mem_cons.mpr ⟨rfl, List.forall_mem_singleton.mpr rfl⟩

theorem length_apply (encoding : Encoding) (arg : Expr) :
    (encoding.apply arg).length = 1 + if encoding = .flagged then 1 else 0 := by
  cases encoding <;> cases arg <;> rfl

/-- **Only the designated argument changes.** -/
theorem applyAt_replaces (encoding : Encoding) (index : Nat) (args : List Expr) :
    encoding.Replaces index args (encoding.applyAt index args) := by
  obtain hle | hlt := (Nat.lt_or_ge index args.length).symm
  · have hnew : ¬ (encoding = .flagged ∧ index < args.length) := fun h => Nat.not_lt.mpr hle h.2
    rw [applyAt_of_le encoding hle]
    refine ⟨⟨[], ?_, fun _ => List.forall_mem_nil _⟩, ?_⟩
    · rw [List.take_of_length_le hle, List.drop_eq_nil_of_le (Nat.le_succ_of_le hle)]
      simp
    · rw [if_neg hnew, Nat.add_zero]
  · rw [applyAt_of_lt encoding hlt]
    refine ⟨⟨encoding.apply args[index], rfl, fun h => identifier?_of_mem_apply h _⟩, ?_⟩
    simp only [List.length_append, List.length_take, List.length_drop, length_apply, hlt, and_true]
    omega

end Encoding

/-! ### The shape of a declaration -/

/-- The link `link'` restates `link` in a section, but for what becomes of the calls among the
components of a tuple. -/
structure Link.Restates (inside : Section) (link link' : Link) : Prop where
  /-- Without a rule, a link stays. -/
  unruled : Rule.find? inside link.method = none →
    link'.method = link.method ∧ link'.args = link.args
  /-- A rule for one argument changes that one alone. -/
  encoded : ∀ rule encoding slot, Rule.find? inside link.method = some rule →
    rule.treatment = .encode encoding slot →
    link'.method = rule.canonical ∧ encoding.Replaces (slot.index link.args) link.args link'.args
  /-- A rule for components changes none that is no call. -/
  components : ∀ rule, Rule.find? inside link.method = some rule → rule.treatment = .components →
    link'.method = rule.canonical ∧ link'.args.length = link.args.length ∧
      ∀ arg arg', (arg, arg') ∈ link.args.zip link'.args → ¬ arg.isCall → arg' = arg

/-- The expression `e'` has the shape of the declaration `e` in a section, with every forward
reference taken out. -/
inductive Restates (inside : Section) : Expr → Expr → Prop
  | intro {e e' : Expr}
    -- as many links, each at the location it had, on the same anchor
    (length : e'.links.length = e.links.length)
    (locs : e'.links.map Link.loc = e.links.map Link.loc)
    (anchor : e'.anchor? = e.anchor?)
    (links : ∀ link link', (link, link') ∈ e.links.zip e'.links → link.Restates inside link')
    -- a component that is a call is a declaration under the same law
    (components : ∀ link link', (link, link') ∈ e.links.zip e'.links →
      ∀ rule, Rule.find? inside link.method = some rule → rule.treatment = .components →
      ∀ arg arg', (arg, arg') ∈ link.args.zip link'.args → arg.isCall → Restates inside arg arg') :
    Restates inside e e'

namespace Rule

variable {rule : Rule}

theorem canonicalArgs_of_components (h : rule.treatment = .components) (args : List Expr) :
    rule.canonicalArgs args = args.map (Expr.canonicalize rule.inside) := by
  unfold canonicalArgs
  rw [h]

theorem canonicalArgs_of_encode {encoding : Encoding} {slot : Slot}
    (h : rule.treatment = .encode encoding slot) (args : List Expr) :
    rule.canonicalArgs args = encoding.applyAt (slot.index args) args := by
  unfold canonicalArgs encodeArgs
  rw [h]
  rfl

end Rule

/-- An item of a list is paired with its own image. -/
private theorem of_mem_zip_map {α β : Type} {f : α → β} {as : List α} {a : α} {b : β}
    (h : (a, b) ∈ as.zip (as.map f)) : a ∈ as ∧ b = f a := by
  rw [← List.map_prod_left_eq_zip] at h
  obtain ⟨x, hmem, heq⟩ := List.mem_map.mp h
  cases heq
  exact ⟨hmem, rfl⟩

theorem Link.canonicalize_restates (inside : Section) (link : Link) :
    link.Restates inside (link.canonicalize inside) := by
  constructor
  case unruled =>
    intro hrule
    rw [canonicalize_of_none hrule]
    exact ⟨rfl, rfl⟩
  case encoded =>
    intro rule encoding slot hrule htreatment
    rw [canonicalize_of_some hrule, Rule.canonicalArgs_of_encode htreatment]
    exact ⟨rfl, encoding.applyAt_replaces _ _⟩
  case components =>
    intro rule hrule htreatment
    rw [canonicalize_of_some hrule, Rule.canonicalArgs_of_components htreatment]
    refine ⟨rfl, List.length_map _, fun arg arg' hzip harg => ?_⟩
    obtain ⟨-, rfl⟩ := of_mem_zip_map hzip
    exact Expr.canonicalize_of_not_isCall harg

/-- **The canonical form of a declaration keeps its shape** and leaves no forward reference behind,
in every section and for every expression. -/
theorem Expr.canonicalize_keeps_shape (inside : Section) (e : Expr) :
    Restates inside e (e.canonicalize inside) := by
  induction e using inductionOnLinks with
  | chain e ih =>
    have hpair : ∀ link link', (link, link') ∈ e.links.zip (e.canonicalize inside).links →
        link ∈ e.links ∧ link' = link.canonicalize inside := by
      intro link link' h
      rw [links_canonicalize] at h
      exact of_mem_zip_map h
    constructor
    case length => rw [links_canonicalize, List.length_map]
    case locs => simp [links_canonicalize]
    case anchor => exact e.anchor?_canonicalize inside
    case links =>
      intro link link' h
      obtain ⟨-, rfl⟩ := hpair link link' h
      exact link.canonicalize_restates inside
    case components =>
      intro link link' h rule hrule htreatment arg arg' hzip _
      obtain ⟨hlink, rfl⟩ := hpair link link' h
      rw [Link.canonicalize_of_some hrule, Rule.canonicalArgs_of_components htreatment,
        Rule.inside_of_find? hrule] at hzip
      obtain ⟨harg, rfl⟩ := of_mem_zip_map hzip
      exact ih link hlink arg harg

end FlowDesugar
