import FlowDesugar.Scope
import FlowDesugar.SourceMap

/-!
# Arenas only grow

Handles and scopes are numbers into arenas that grow at the end.

* `Scopes.Opened` — one scope was opened and no other was touched;
* `Scopes.Extends` — scopes were opened and those already there kept their parents. Those that were
  opened are `Scopes.added`, and all there are `Scopes.ids`;
* `SourceMap.Extends` — locations were added and those already there kept what they stand for. A
  handle that a map knows stands for the same position in every extension of it
  (`SourceMap.Extends.position?_eq`).
-/

namespace FlowDesugar

namespace Scopes

/-- The arena `after` is `before` with one more scope, which was opened inside `parent`. -/
structure Opened (before : Scopes) (parent scope : ScopeId) (after : Scopes) : Prop where
  /-- The scope was not there before. -/
  fresh : scope.index = before.size
  size_eq : after.size = before.size + 1
  parent?_eq : after.parent? scope = some parent
  /-- The scopes that were there before keep their parents. -/
  others : ∀ s : ScopeId, s.index < before.size → after.parent? s = before.parent? s

theorem opened_child (scopes : Scopes) (parent : ScopeId) :
    Opened scopes parent (scopes.child parent).1 (scopes.child parent).2 where
  fresh := rfl
  size_eq := Array.size_push _
  parent?_eq := by
    change ((scopes.parents.push (some parent))[scopes.parents.size]?).join = some parent
    rw [Array.getElem?_push_size]
    rfl
  others := by
    intro s hs
    change ((scopes.parents.push (some parent))[s.index]?).join = (scopes.parents[s.index]?).join
    have hne : s.index ≠ scopes.parents.size := Nat.ne_of_lt hs
    rw [Array.getElem?_push, if_neg hne]

/-- A scope that has a parent is known to the arena. -/
theorem index_lt_of_parent? {scopes : Scopes} {s outer : ScopeId}
    (h : scopes.parent? s = some outer) : s.index < scopes.size := by
  refine Nat.lt_of_not_le fun hle => ?_
  have hnone : scopes.parents[s.index]? = none := Array.getElem?_eq_none hle
  unfold parent? at h
  rw [hnone] at h
  cases h

/-- The arena `after` is `before` with scopes opened. -/
structure Extends (after before : Scopes) : Prop where
  size_le : before.size ≤ after.size
  parent?_eq : ∀ s : ScopeId, s.index < before.size → after.parent? s = before.parent? s

namespace Extends

theorem refl (scopes : Scopes) : scopes.Extends scopes :=
  ⟨Nat.le_refl _, fun _ _ => rfl⟩

theorem trans {first second third : Scopes} (h : second.Extends first)
    (h' : third.Extends second) : third.Extends first where
  size_le := Nat.le_trans h.size_le h'.size_le
  parent?_eq s hs :=
    (h'.parent?_eq s (Nat.lt_of_lt_of_le hs h.size_le)).trans (h.parent?_eq s hs)

/-- The parent that a scope has, it keeps. -/
theorem parent?_eq_some {after before : Scopes} (h : after.Extends before) {s outer : ScopeId}
    (hs : before.parent? s = some outer) : after.parent? s = some outer := by
  rw [h.parent?_eq s (index_lt_of_parent? hs), hs]

end Extends

theorem extends_child (scopes : Scopes) (parent : ScopeId) :
    (scopes.child parent).2.Extends scopes where
  size_le := by
    rw [(opened_child scopes parent).size_eq]
    exact Nat.le_succ _
  parent?_eq := (opened_child scopes parent).others

/-- The scopes that `after` has and `before` does not, in the order in which they were opened. -/
def added (before after : Scopes) : List ScopeId :=
  (List.range' before.size (after.size - before.size)).map ScopeId.mk

@[simp] theorem added_self (scopes : Scopes) : scopes.added scopes = [] := by
  unfold added
  rw [Nat.sub_self]
  rfl

theorem added_child (scopes : Scopes) (parent : ScopeId) :
    scopes.added (scopes.child parent).2 = [(scopes.child parent).1] := by
  unfold added
  rw [(opened_child scopes parent).size_eq, Nat.add_sub_cancel_left]
  rfl

theorem added_append {first second third : Scopes} (h : first.size ≤ second.size)
    (h' : second.size ≤ third.size) :
    first.added second ++ second.added third = first.added third := by
  have hstart : second.size = first.size + (second.size - first.size) := by omega
  have hlength : second.size - first.size + (third.size - second.size)
      = third.size - first.size := by omega
  unfold added
  rw [← List.map_append, ← hlength, ← List.range'_append_1, ← hstart]

/-- All scopes of an arena, in the order in which they were opened. -/
def ids (scopes : Scopes) : List ScopeId :=
  (List.range scopes.size).map ScopeId.mk

theorem mem_ids {scopes : Scopes} {s : ScopeId} : s ∈ scopes.ids ↔ s.index < scopes.size := by
  unfold ids
  rw [List.mem_map]
  constructor
  · rintro ⟨i, hi, rfl⟩
    exact List.mem_range.mp hi
  · exact fun hs => ⟨s.index, List.mem_range.mpr hs, rfl⟩

theorem nodup_ids (scopes : Scopes) : scopes.ids.Nodup :=
  List.Pairwise.map ScopeId.mk (fun _ _ hne heq => hne (ScopeId.mk.inj heq)) List.nodup_range

theorem ids_append_added {before after : Scopes} (h : before.size ≤ after.size) :
    before.ids ++ before.added after = after.ids := by
  obtain ⟨n, hn⟩ : ∃ n, after.size = before.size + n := ⟨after.size - before.size, by omega⟩
  unfold added ids
  rw [hn, Nat.add_sub_cancel_left, ← List.map_append, List.range_eq_range', List.range_eq_range',
    ← List.range'_append_1, Nat.zero_add]

/-- The root and the scopes opened since it was the only one. -/
theorem root_cons_added_fresh {scopes : Scopes} (h : 1 ≤ scopes.size) :
    root :: fresh.added scopes = scopes.ids := by
  have hfresh : fresh.size ≤ scopes.size := h
  exact ids_append_added hfresh

end Scopes

namespace SourceMap

/-- The map `after` is `before` with locations added. -/
structure Extends (after before : SourceMap) : Prop where
  size_le : before.size ≤ after.size
  entries_eq : ∀ i, i < before.size → after.entries[i]? = before.entries[i]?

namespace Extends

theorem refl (map : SourceMap) : map.Extends map :=
  ⟨Nat.le_refl _, fun _ _ => rfl⟩

theorem trans {first second third : SourceMap} (h : second.Extends first)
    (h' : third.Extends second) : third.Extends first where
  size_le := Nat.le_trans h.size_le h'.size_le
  entries_eq i hi := (h'.entries_eq i (Nat.lt_of_lt_of_le hi h.size_le)).trans (h.entries_eq i hi)

end Extends

@[simp] theorem size_mint (map : SourceMap) (info : SourceInfo) :
    (map.mint info).2.size = map.size + 1 :=
  Array.size_push _

theorem extends_mint (map : SourceMap) (info : SourceInfo) : (map.mint info).2.Extends map where
  size_le := by rw [size_mint]; exact Nat.le_succ _
  entries_eq i hi := by
    change (map.entries.push info)[i]? = map.entries[i]?
    have hne : i ≠ map.entries.size := Nat.ne_of_lt hi
    rw [Array.getElem?_push, if_neg hne]

@[simp] theorem info?_mint_self (map : SourceMap) (info : SourceInfo) :
    (map.mint info).2.info? (map.mint info).1 = some info :=
  Array.getElem?_push_size

/-- A map knows a handle if it has a location for it. The handle for no location is known to every
map. -/
def Knows (map : SourceMap) : Handle → Prop
  | .unknown => True
  | .entry index => index < map.size

theorem Extends.knows {after before : SourceMap} (h : after.Extends before) {handle : Handle}
    (hk : before.Knows handle) : after.Knows handle := by
  cases handle with
  | unknown => trivial
  | entry index => exact Nat.lt_of_lt_of_le hk h.size_le

theorem Extends.position?_eq {after before : SourceMap} (h : after.Extends before)
    {handle : Handle} (hk : before.Knows handle) :
    after.position? handle = before.position? handle := by
  cases handle with
  | unknown => rfl
  | entry index =>
    have hentries := h.entries_eq index hk
    change (after.entries[index]?).bind _ = (before.entries[index]?).bind _
    rw [hentries]

end SourceMap

end FlowDesugar
