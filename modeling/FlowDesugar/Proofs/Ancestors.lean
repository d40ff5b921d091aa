import Mathlib.Data.List.Basic
import FlowDesugar.Files.Store

/-!
# The directories above a path

Where an absolute path leads depends on its steps alone: the names between its slashes other than
the empty one and `.`. The parent of such a path has all its steps but the last, and only a path
without steps has none.

Going up from a path until there is no parent is a search without a bound. `Ascent` is this search
as a relation, and `ascent_ancestors` says that it ends, for every path, with the paths that
`ancestors` lists. On the way up from an absolute path the first one with some property of its steps
is the one with the most steps (`Ascent.find?`).
-/

namespace FlowDesugar.Files

/-! ### Steps -/

/-- A name that leads somewhere else, if only up. -/
def IsStep (name : String) : Prop :=
  name ≠ "" ∧ name ≠ "."

instance (name : String) : Decidable (IsStep name) :=
  inferInstanceAs (Decidable (_ ∧ _))

/-- The names of a path that count. -/
def steps (path : String) : List String :=
  (Store.names path).filter (IsStep ·)

/-- A path that is the same from everywhere. -/
def IsAbsolute (path : String) : Prop :=
  path.toList.head? = some '/'

theorem names_append (front back : List Char) :
    Store.names (.ofList (front ++ '/' :: back))
      = Store.names (.ofList front) ++ Store.names (.ofList back) := by
  unfold Store.names
  simp only [String.toList_ofList, Text.splitAt_eq_splitOn]
  rw [List.splitOn_append_cons_self, List.map_append]

theorem names_of_not_mem {name : String} (h : '/' ∉ name.toList) : Store.names name = [name] := by
  unfold Store.names
  rw [Text.splitAt_eq_splitOn, List.splitOn_eq_singleton h, List.map_singleton,
    String.ofList_toList]

theorem steps_append (front back : List Char) :
    steps (.ofList (front ++ '/' :: back)) = steps (.ofList front) ++ steps (.ofList back) := by
  unfold steps
  rw [names_append, List.filter_append]

theorem steps_of_isStep {name : String} (h : '/' ∉ name.toList) (hstep : IsStep name) :
    steps name = [name] := by
  unfold steps
  rw [names_of_not_mem h, List.filter_cons_of_pos (by simpa using hstep), List.filter_nil]

theorem steps_ofList_nil : steps (.ofList []) = [] := rfl

theorem steps_slash_end (front : List Char) :
    steps (.ofList (front ++ ['/'])) = steps (.ofList front) := by
  rw [steps_append, steps_ofList_nil, List.append_nil]

/-! ### The end of a path -/

/-- What is left out at the end of a path does not count. -/
theorem steps_trimReversed (cs : List Char) :
    steps (.ofList (trimReversed cs).reverse) = steps (.ofList cs.reverse) := by
  fun_induction trimReversed cs with
  | case1 c rest ih =>
    have hslash := steps_slash_end (c :: rest).reverse
    rw [ih, ← hslash, ← List.reverse_cons]
  | case2 rest ih =>
    -- the name `.` at the end is no step, and then neither is the slash before it
    have hdot : steps (.ofList ['.']) = [] := rfl
    have hend := steps_append rest.reverse ['.']
    rw [hdot, List.append_nil] at hend
    rw [ih, List.reverse_cons, steps_slash_end, ← hend]
    simp only [List.reverse_cons, List.append_assoc, List.cons_append, List.nil_append]
  | case3 cs _ _ => rfl

theorem length_trimReversed_le (cs : List Char) : (trimReversed cs).length ≤ cs.length := by
  fun_induction trimReversed cs with
  | case1 c rest ih => exact Nat.le_succ_of_le ih
  | case2 rest ih => exact Nat.le_succ_of_le ih
  | case3 cs _ _ => exact Nat.le_refl _

/-- A path that starts at the root still does when its end is left out. -/
theorem getLast?_trimReversed {cs : List Char} (h : cs.getLast? = some '/') :
    (trimReversed cs).getLast? = some '/' := by
  fun_induction trimReversed cs with
  | case1 c rest ih => exact ih (by simpa using h)
  | case2 rest ih => exact ih (by simpa using h)
  | case3 cs _ _ => exact h

/-- What is left is nothing, the root, or ends in a name. -/
theorem trimReversed_cases (cs : List Char) :
    trimReversed cs = [] ∨ trimReversed cs = ['/'] ∨
      ∃ name above, trimReversed cs = name ++ above ∧ name ≠ [] ∧ '/' ∉ name ∧
        (above = [] ∨ name ≠ ['.'] ∧ ∃ rest, above = '/' :: rest) := by
  fun_induction trimReversed cs with
  | case1 c rest ih => exact ih
  | case2 rest ih => exact ih
  | case3 cs hslash hdot =>
    by_cases hmem : '/' ∈ cs
    · obtain ⟨name, rest, rfl, hname⟩ := List.eq_append_cons_of_mem hmem
      refine .inr ?_
      by_cases hne : name = []
      · -- a slash at the end is left out, unless it is all there is
        subst hne
        cases rest with
        | nil => exact .inl rfl
        | cons c rest => exact (hslash c rest rfl).elim
      · have hdotless : name ≠ ['.'] := by
          rintro rfl
          exact hdot rest rfl
        exact .inr ⟨name, '/' :: rest, rfl, hne, hname, .inr ⟨hdotless, rest, rfl⟩⟩
    · by_cases hcs : cs = []
      · exact .inl hcs
      · exact .inr (.inr ⟨cs, [], (List.append_nil cs).symm, hcs, hmem, .inl rfl⟩)

/-! ### Parents -/

theorem toList_reverse_eq (path : String) : .ofList path.toList.reverse.reverse = path := by
  rw [List.reverse_reverse, String.ofList_toList]

/-- A path without a parent has no steps. -/
theorem steps_of_parent?_eq_none {path : String} (h : parent? path = none) : steps path = [] := by
  have htrim := steps_trimReversed path.toList.reverse
  rw [toList_reverse_eq] at htrim
  rw [← htrim]
  unfold parent? at h
  split at h
  · next hnil => rw [hnil]; rfl
  · next hroot => rw [hroot]; rfl
  · cases h

/-- A parent is what is left when the last name is taken away. -/
theorem exists_of_parent?_eq_some {path parent : String} (h : parent? path = some parent) :
    ∃ name above, trimReversed path.toList.reverse = name ++ above ∧ name ≠ [] ∧ '/' ∉ name ∧
      (above = [] ∨ name ≠ ['.'] ∧ ∃ rest, above = '/' :: rest) ∧
      parent = .ofList (trimReversed above).reverse := by
  unfold parent? at h
  obtain hnil | hroot | ⟨name, above, heq, hne, hname, habove⟩ :=
    trimReversed_cases path.toList.reverse
  · rw [hnil] at h
    cases h
  · rw [hroot] at h
    cases h
  · refine ⟨name, above, heq, hne, hname, habove, ?_⟩
    have hdrop : (name ++ above).dropWhile (· ≠ '/') = above := by
      rw [List.dropWhile_append_of_pos]
      · obtain rfl | ⟨-, rest, rfl⟩ := habove
        · rfl
        · exact List.dropWhile_cons_of_neg (by simp)
      · intro c hc
        have hslash : c ≠ '/' := fun heq => hname (heq ▸ hc)
        simpa using hslash
    rw [heq] at h
    split at h
    · cases h
    · cases h
    · rw [hdrop] at h
      exact (Option.some.inj h).symm

theorem length_lt_of_parent? {path parent : String} (h : parent? path = some parent) :
    parent.length < path.length := by
  obtain ⟨name, above, heq, hne, -, -, rfl⟩ := exists_of_parent?_eq_some h
  have hname : 0 < name.length := List.length_pos_iff.mpr hne
  have hpath := length_trimReversed_le path.toList.reverse
  have habove := length_trimReversed_le above
  rw [heq, List.length_append, List.length_reverse, String.length_toList] at hpath
  rw [String.length_ofList, List.length_reverse]
  omega

/-- **The parent of an absolute path** is absolute and lacks the last step. -/
theorem steps_of_parent?_eq_some {path parent : String} (habsolute : IsAbsolute path)
    (h : parent? path = some parent) :
    IsAbsolute parent ∧ ∃ name, steps path = steps parent ++ [name] := by
  obtain ⟨name, above, heq, hne, hname, habove, rfl⟩ := exists_of_parent?_eq_some h
  have hlast : (name ++ above).getLast? = some '/' := by
    rw [← heq]
    exact getLast?_trimReversed (by rw [List.getLast?_reverse]; exact habsolute)
  obtain rfl | ⟨hdot, rest, rfl⟩ := habove
  · -- the name would hold the slash that the path starts with
    rw [List.append_nil] at hlast
    exact absurd (List.mem_of_getLast? hlast) hname
  · constructor
    · unfold IsAbsolute
      rw [String.toList_ofList, List.head?_reverse]
      apply getLast?_trimReversed
      simpa using hlast
    · have hpath := steps_trimReversed path.toList.reverse
      rw [toList_reverse_eq] at hpath
      have hstep : IsStep (.ofList name.reverse) := by
        constructor
        · intro hempty
          have hchars := congrArg String.toList hempty
          exact hne (by simpa using hchars)
        · intro hsingle
          have hchars := congrArg String.toList hsingle
          exact hdot (by simpa [List.reverse_eq_iff] using hchars)
      refine ⟨.ofList name.reverse, ?_⟩
      rw [steps_trimReversed, ← hpath, heq, List.reverse_append, List.reverse_cons,
        steps_slash_end, List.append_assoc, List.singleton_append, steps_append,
        steps_of_isStep (by simpa using hname) hstep]

/-! ### Going up -/

/-- The paths that one comes by, going up from a path as long as there is a parent. -/
inductive Ascent : String → List String → Prop where
  | top {path : String} (h : parent? path = none) : Ascent path [path]
  | up {path parent : String} {paths : List String} (h : parent? path = some parent)
      (above : Ascent parent paths) : Ascent path (path :: paths)

theorem ascent_ancestorsWithin {bound : Nat} {path : String} (h : path.length ≤ bound) :
    Ascent path (ancestorsWithin bound path) := by
  induction bound generalizing path with
  | zero =>
    -- a parent would be shorter than the empty path
    refine .top (Option.eq_none_iff_forall_ne_some.mpr ?_)
    intro parent hparent
    have hlt := length_lt_of_parent? hparent
    omega
  | succ bound ih =>
    rw [ancestorsWithin]
    cases hparent : parent? path with
    | none => exact .top hparent
    | some parent =>
      have hlt := length_lt_of_parent? hparent
      exact .up hparent (ih (by omega))

/-- **The way up ends**, for every path. -/
theorem ascent_ancestors (path : String) : Ascent path (ancestors path) :=
  ascent_ancestorsWithin (Nat.le_refl _)

/-- Of the beginnings of `names` that have a property, `found` is the longest. -/
structure IsDeepest (P : List String → Prop) (names found : List String) : Prop where
  above : found <+: names
  holds : P found
  deepest : ∀ other, other <+: names → found.length < other.length → ¬ P other

theorem IsDeepest.self {P : List String → Prop} {names : List String} (h : P names) :
    IsDeepest P names names where
  above := List.prefix_rfl
  holds := h
  deepest := by
    intro other hother hlonger
    exact absurd hother.length_le (by omega)

theorem IsDeepest.concat {P : List String → Prop} {names found : List String} {name : String}
    (h : IsDeepest P names found) (hname : ¬ P (names ++ [name])) :
    IsDeepest P (names ++ [name]) found where
  above := h.above.trans (List.prefix_append _ _)
  holds := h.holds
  deepest := by
    intro other hother hlonger
    obtain rfl | hother := List.prefix_concat_iff.mp hother
    · exact hname
    · exact h.deepest other hother hlonger

/-- **The first path on the way up** with some property of its steps is the one with the most steps;
if there is none, then no beginning of the steps has it. -/
theorem Ascent.find? {holds : String → Bool} {P : List String → Prop}
    (hholds : ∀ path, IsAbsolute path → (holds path = true ↔ P (steps path)))
    {path : String} {paths : List String} (h : Ascent path paths) (habsolute : IsAbsolute path) :
    (∃ found, paths.find? holds = some found ∧ IsAbsolute found ∧
        IsDeepest P (steps path) (steps found)) ∨
      paths.find? holds = none ∧ ∀ other, other <+: steps path → ¬ P other := by
  -- The induction goes down from the top: what is found above a path is found from it as well,
  -- unless the path has the property itself.
  induction h with
  | @top path hparent =>
    have hat := hholds path habsolute
    by_cases hpath : holds path = true
    · exact .inl ⟨path, List.find?_cons_of_pos hpath, habsolute, .self (hat.mp hpath)⟩
    · refine .inr ⟨by rw [List.find?_cons_of_neg hpath, List.find?_nil], ?_⟩
      intro other hother hP
      -- without a parent there are no steps, and no steps have one beginning
      rw [steps_of_parent?_eq_none hparent] at hother hat
      rw [List.prefix_nil.mp hother] at hP
      exact hpath (hat.mpr hP)
  | @up path parent paths hparent above ih =>
    obtain ⟨hparentAbsolute, name, hsteps⟩ := steps_of_parent?_eq_some habsolute hparent
    have hat := hholds path habsolute
    by_cases hpath : holds path = true
    · exact .inl ⟨path, List.find?_cons_of_pos hpath, habsolute, .self (hat.mp hpath)⟩
    · -- the path itself lacks the property, so whatever has it is above
      rw [hat, hsteps] at hpath
      rw [List.find?_cons_of_neg (by rwa [hat, hsteps]), hsteps]
      obtain ⟨found, hfound, hfoundAbsolute, hdeepest⟩ | ⟨hnone, hno⟩ := ih hparentAbsolute
      · exact .inl ⟨found, hfound, hfoundAbsolute, hdeepest.concat hpath⟩
      · refine .inr ⟨hnone, ?_⟩
        intro other hother
        obtain rfl | hother := List.prefix_concat_iff.mp hother
        · exact hpath
        · exact hno other hother

/-! ### A name in a directory -/

/-- A slash stands before a name that is looked for in a directory, and what stands before the slash
leads to the directory. -/
theorem exists_join_eq {base name : String} (hbase : IsAbsolute base) (hname : '/' ∉ name.toList) :
    ∃ front, join base name = .ofList (front ++ '/' :: name.toList) ∧
      (front ++ ['/']).head? = some '/' ∧ steps (.ofList front) = steps base := by
  have hnot : ¬ (name.toList.head? = some '/' ∨ base.isEmpty) := by
    rintro (hhead | hempty)
    · exact hname (List.mem_of_head? hhead)
    · rw [String.isEmpty_iff.mp hempty] at hbase
      cases hbase
  unfold IsAbsolute at hbase
  unfold join
  rw [if_neg hnot]
  split
  · next hslash =>
    obtain ⟨front, hfront⟩ := List.getLast?_eq_some_iff.mp hslash
    refine ⟨front, ?_, ?_, ?_⟩
    · apply String.toList_injective
      simp [hfront]
    · rw [← hfront, hbase]
    · rw [← steps_slash_end, ← hfront, String.ofList_toList]
  · refine ⟨base.toList, ?_, ?_, ?_⟩
    · apply String.toList_injective
      simp
    · rw [List.head?_append, hbase]
      rfl
    · rw [String.ofList_toList]

theorem isAbsolute_join {base name : String} (hbase : IsAbsolute base) (hname : '/' ∉ name.toList) :
    IsAbsolute (join base name) := by
  obtain ⟨front, hjoin, hhead, -⟩ := exists_join_eq hbase hname
  unfold IsAbsolute
  rw [hjoin, String.toList_ofList, ← List.singleton_append, ← List.append_assoc, List.head?_append,
    hhead]
  rfl

/-- **A name in a directory** is one step more. -/
theorem steps_join {base name : String} (hbase : IsAbsolute base) (hname : '/' ∉ name.toList)
    (hstep : IsStep name) : steps (join base name) = steps base ++ [name] := by
  obtain ⟨front, hjoin, -, hfront⟩ := exists_join_eq hbase hname
  rw [hjoin, steps_append, hfront, String.ofList_toList, steps_of_isStep hname hstep]

namespace Store

/-- Names that are no steps can be left out of a path that ends in a step. -/
theorem follow_filter (store : Store) (place : Place) {names : List String} {last : String}
    (hlast : names.getLast? = some last) (hstep : IsStep last) :
    store.follow place names = store.follow place (names.filter (IsStep ·)) := by
  induction names generalizing place with
  | nil => rfl
  | cons name names ih =>
    by_cases hend : names = []
    · subst hend
      obtain rfl : name = last := by simpa using hlast
      rw [List.filter_cons_of_pos (by simpa using hstep), List.filter_nil]
    · have hrest : names.getLast? = some last := by
        rw [List.getLast?_cons, List.getLast?_eq_some_getLast hend] at hlast
        rw [List.getLast?_eq_some_getLast hend]
        exact hlast
      -- the last name stays when the others are left out, so what is left does not end sooner
      have hmem : last ∈ names.filter (IsStep ·) := by
        simpa using ⟨List.mem_of_getLast? hrest, hstep⟩
      by_cases hskip : name = "" ∨ name = "."
      · have hno : ¬ IsStep name := fun hname => hskip.elim hname.1 hname.2
        rw [List.filter_cons_of_neg (by simpa using hno), ← ih place hrest, follow, if_pos hskip]
      · have hyes : IsStep name := not_or.mp hskip
        rw [List.filter_cons_of_pos (by simpa using hyes), follow, follow, if_neg hskip,
          if_neg hskip, ← ih place.dropLast hrest]
        have hmore : (names.filter (IsStep ·)).isEmpty = false :=
          List.isEmpty_eq_false_iff.mpr (List.ne_nil_of_mem hmem)
        simp only [List.isEmpty_eq_false_iff.mpr hend, hmore, ← ih (place ++ [name]) hrest]

/-- The names lead from the root to a file. -/
def HasFile (store : Store) (names : List String) : Prop :=
  ∃ place content, store.follow [] names = .ok place ∧ store.get? place = some (.file content)

/-- **A file in a directory** is found by the steps that lead to it. -/
theorem isFile_join_iff (store : Store) (current : Place) {base name : String}
    (hbase : IsAbsolute base) (hname : '/' ∉ name.toList) (hstep : IsStep name) :
    store.isFile current (join base name) = true ↔ store.HasFile (steps base ++ [name]) := by
  obtain ⟨front, hjoin, -, hfront⟩ := exists_join_eq hbase hname
  have habsolute : (join base name).toList.head? = some '/' := isAbsolute_join hbase hname
  have hlast : (names (join base name)).getLast? = some name := by
    rw [hjoin, names_append, String.ofList_toList, names_of_not_mem hname, List.getLast?_concat]
  have hnonempty : ¬ (join base name).isEmpty := by
    intro hempty
    rw [String.isEmpty_iff.mp hempty] at habsolute
    cases habsolute
  -- an absolute path is followed from the root, wherever one is
  have hlocate :
      store.locate current (join base name) = store.follow [] (steps base ++ [name]) := by
    rw [← steps_join hbase hname hstep, locate, if_neg hnonempty, if_pos habsolute,
      store.follow_filter [] hlast hstep, steps]
  unfold isFile read? HasFile
  rw [hlocate]
  cases store.follow [] (steps base ++ [name]) with
  | error error => simp
  | ok place =>
    cases hentry : store.get? place with
    | none => simp [hentry]
    | some entry => cases entry <;> simp [hentry]

end Store

end FlowDesugar.Files
