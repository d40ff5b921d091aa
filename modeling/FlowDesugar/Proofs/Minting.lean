import FlowDesugar.Proofs.Arenas

/-!
# Runs of a source map

The client of a source map mints handles: for positions, for generated nodes, and for the positions
of handles that it has. This module says what a whole run of it can rely on.

* `Minting` — the three ways of minting, and `SourceMap.Mintings` — a run, in which annotations are
  made of handles that the map knows by then;
* `SourceMap.Minted` — the invariant: the handles are numbered in order of creation, and each stands
  for what was asked for, as the *last* map of the run sees it. `SourceMap.Minted.mint` is the step
  and `SourceMap.Mintings.minted` the run;
* `SourceMap.Annotations` — a handle reached from another by annotating again and again;
* `Handle.word` — a handle as a word of 32 bits, where zero stands for no location. Up to
  `Handle.capacity` locations nothing is lost by that (`Handle.ofWord_word`), and the order of words
  is the order of handles (`Handle.word_lt_word`);
* `SourceMap.mintings_lawful` — all this together, for every run that starts with the empty map.
-/

namespace FlowDesugar

/-! ### Handles as words -/

namespace Handle

/-- The number of locations that words of 32 bits can tell apart, if one word stands for none. -/
def capacity : Nat := 4294967295

/-- A handle as a word: the number of its location, counted from one, or zero for no location. The
number is cut to 32 bits. -/
def word : Handle → UInt32
  | unknown => 0
  | entry index => index.toUInt32 + 1

/-- The handle that a word stands for. -/
def ofWord (word : UInt32) : Handle :=
  if word = 0 then unknown else entry (word.toNat - 1)

/-- The number of a handle, counted from one, fits into a word. -/
def Fits : Handle → Prop
  | unknown => True
  | entry index => index < capacity

theorem toNat_word_unknown : unknown.word.toNat = 0 := rfl

theorem toNat_word_entry {index : Nat} (h : (entry index).Fits) :
    (entry index).word.toNat = index + 1 := by
  have hlt : index + 1 < UInt32.size := Nat.succ_lt_succ h
  change (index.toUInt32 + 1).toNat = index + 1
  rw [UInt32.toNat_add, Nat.toUInt32_eq, UInt32.toNat_ofNat_of_lt' (Nat.lt_of_succ_lt hlt)]
  exact Nat.mod_eq_of_lt hlt

/-- A handle that fits can be had back from its word. -/
theorem ofWord_word {handle : Handle} (h : handle.Fits) : ofWord handle.word = handle := by
  cases handle with
  | unknown => rfl
  | entry index =>
    have hword := toNat_word_entry h
    have hne : (entry index).word ≠ 0 := by
      intro hzero
      rw [hzero] at hword
      cases hword
    rw [ofWord, if_neg hne, hword, Nat.add_sub_cancel]

/-- The order of words is the order of handles. -/
theorem word_lt_word {a b : Handle} (ha : a.Fits) (hb : b.Fits) :
    a.word < b.word ↔ a.before b := by
  rw [UInt32.lt_iff_toNat_lt]
  cases a with
  | unknown =>
    cases b with
    | unknown => simp [before, toNat_word_unknown]
    | entry j => simp [before, toNat_word_unknown, toNat_word_entry hb]
  | entry i =>
    cases b with
    | unknown => simp [before, toNat_word_unknown]
    | entry j => simp [before, toNat_word_entry ha, toNat_word_entry hb]

/-- One location more, and the words run out. -/
example : (entry capacity).word = unknown.word := by decide

end Handle

/-! ### Runs -/

/-- A way of minting a handle. -/
inductive Minting where
  /-- For a position of the source text. -/
  | position (position : Position)
  /-- For a generated node that belongs nowhere in the source text. -/
  | synthetic (note : String)
  /-- For the position of another handle. -/
  | annotated (origin : Handle) (note : String)

namespace SourceMap

/-- Mints a handle in one of the three ways. -/
def perform (map : SourceMap) : Minting → Handle × SourceMap
  | .position position => map.add position
  | .synthetic note => map.addSynthetic note
  | .annotated origin note => map.annotated origin note

/-- A client may annotate the handles that the map knows, of which the unknown one is one. -/
def Allows (map : SourceMap) : Minting → Prop
  | .annotated origin _ => map.Knows origin
  | _ => True

/-- The client of a source map mints handles: it starts with `before`, does the mintings of a list,
is given the handles of another, in order, and ends with the last map. -/
inductive Mintings (before : SourceMap) : List Minting → List Handle → SourceMap → Prop
  | start : Mintings before [] [] before
  | mint {mintings : List Minting} {handles : List Handle} {map : SourceMap} {minting : Minting} :
    Mintings before mintings handles map → map.Allows minting →
    Mintings before (mintings ++ [minting]) (handles ++ [(map.perform minting).1])
      (map.perform minting).2

/-- What a minting leaves in a map. -/
def infoOf (map : SourceMap) : Minting → SourceInfo
  | .position position => ⟨some position, none⟩
  | .synthetic note => ⟨none, some note⟩
  | .annotated origin note => ⟨map.position? origin, some note⟩

theorem perform_eq (map : SourceMap) (minting : Minting) :
    map.perform minting = map.mint (map.infoOf minting) := by
  cases minting <;> rfl

/-! ### What stays as it is -/

theorem Extends.info?_eq {after before : SourceMap} (h : after.Extends before) {handle : Handle}
    (hk : before.Knows handle) : after.info? handle = before.info? handle := by
  cases handle with
  | unknown => rfl
  | entry index => exact h.entries_eq index hk

theorem Extends.infoOf_eq {after before : SourceMap} (h : after.Extends before)
    {minting : Minting} (hallowed : before.Allows minting) :
    after.infoOf minting = before.infoOf minting := by
  cases minting with
  | position position => rfl
  | synthetic note => rfl
  | annotated origin note => rw [infoOf, infoOf, h.position?_eq hallowed]

theorem Extends.allows {after before : SourceMap} (h : after.Extends before) {minting : Minting}
    (hallowed : before.Allows minting) : after.Allows minting := by
  cases minting with
  | position position => trivial
  | synthetic note => trivial
  | annotated origin note => exact h.knows hallowed

theorem Mintings.extends_before {before after : SourceMap} {mintings : List Minting}
    {handles : List Handle} (h : before.Mintings mintings handles after) :
    after.Extends before := by
  induction h with
  | start => exact .refl before
  | @mint mintings handles map minting _ _ ih =>
    rw [perform_eq]
    exact ih.trans (extends_mint map _)

/-! ### The invariant -/

/-- What a run of mintings leaves: the handles are numbered in order of creation, and each stands
for what its minting asks for, where positions are looked up in the map that the run ends with. -/
structure Minted (mintings : List Minting) (handles : List Handle) (map : SourceMap) : Prop where
  size_eq : map.size = mintings.length
  handles_eq : handles = (List.range mintings.length).map Handle.entry
  allowed : ∀ minting ∈ mintings, map.Allows minting
  info?_eq : ∀ (i : Nat) (minting : Minting), mintings[i]? = some minting →
    map.info? (.entry i) = some (map.infoOf minting)

theorem minted_empty : Minted [] [] empty where
  size_eq := rfl
  handles_eq := rfl
  allowed := List.forall_mem_nil _
  info?_eq := fun _ _ heq => by cases heq

/-- **One step**: one more minting, of a handle that the map knows. -/
theorem Minted.mint {mintings : List Minting} {handles : List Handle} {map : SourceMap}
    (h : Minted mintings handles map) {minting : Minting} (hallowed : map.Allows minting) :
    Minted (mintings ++ [minting]) (handles ++ [(map.perform minting).1])
      (map.perform minting).2 := by
  have hextends : (map.perform minting).2.Extends map := by
    rw [perform_eq]
    exact extends_mint map _
  constructor
  case size_eq => rw [perform_eq, size_mint, h.size_eq, List.length_append, List.length_singleton]
  case handles_eq =>
    have hnew : (map.perform minting).1 = .entry mintings.length := by
      rw [perform_eq, ← h.size_eq]
      rfl
    rw [hnew, h.handles_eq, List.length_append, List.length_singleton, List.range_succ,
      List.map_append, List.map_singleton]
  case allowed =>
    intro other hother
    rcases List.mem_append.mp hother with hold | hlast
    · exact hextends.allows (h.allowed other hold)
    · rw [List.mem_singleton.mp hlast]
      exact hextends.allows hallowed
  case info?_eq =>
    intro i other hi
    by_cases hold : i < mintings.length
    · -- the location was there before, and what it stands for looks the same from the new map
      rw [List.getElem?_append_left hold] at hi
      have hknows : map.Knows (.entry i) := by
        rw [← h.size_eq] at hold
        exact hold
      rw [hextends.info?_eq hknows, h.info?_eq i other hi,
        hextends.infoOf_eq (h.allowed other (List.mem_of_getElem? hi))]
    · -- the location is the new one
      rw [List.getElem?_append_right (Nat.le_of_not_lt hold), List.getElem?_singleton] at hi
      split at hi
      · next hzero =>
        obtain rfl := Option.some.inj hi
        have hindex : i = map.size := by
          rw [h.size_eq]
          omega
        rw [hextends.infoOf_eq hallowed, perform_eq, hindex]
        exact info?_mint_self map _
      · cases hi

/-- **A whole run.** -/
theorem Mintings.minted {mintings : List Minting} {handles : List Handle} {map : SourceMap}
    (h : empty.Mintings mintings handles map) : Minted mintings handles map := by
  induction h with
  | start => exact minted_empty
  | mint _ hallowed ih => exact ih.mint hallowed

namespace Minted

variable {mintings : List Minting} {handles : List Handle} {map : SourceMap}

theorem mem_handles (h : Minted mintings handles map) {handle : Handle} :
    handle ∈ handles ↔ ∃ i < mintings.length, handle = .entry i := by
  rw [h.handles_eq, List.mem_map]
  constructor
  · rintro ⟨i, hi, rfl⟩
    exact ⟨i, List.mem_range.mp hi, rfl⟩
  · rintro ⟨i, hi, rfl⟩
    exact ⟨i, List.mem_range.mpr hi, rfl⟩

/-- The map knows the handles of the run and the unknown one, and no other. -/
theorem knows_iff (h : Minted mintings handles map) {handle : Handle} :
    map.Knows handle ↔ handle = .unknown ∨ handle ∈ handles := by
  rw [h.mem_handles]
  cases handle with
  | unknown => exact iff_of_true trivial (.inl rfl)
  | entry index =>
    change index < map.size ↔ _
    rw [h.size_eq]
    constructor
    · exact fun hlt => .inr ⟨index, hlt, rfl⟩
    · rintro (hunknown | ⟨i, hi, hsame⟩)
      · cases hunknown
      · cases hsame
        exact hi

theorem getElem?_handles (h : Minted mintings handles map) {i : Nat} {handle : Handle}
    (hi : handles[i]? = some handle) : handle = .entry i := by
  rw [h.handles_eq, List.getElem?_map] at hi
  obtain ⟨j, hj, rfl⟩ := Option.map_eq_some_iff.mp hi
  obtain ⟨hlt, heq⟩ := List.getElem?_eq_some_iff.mp hj
  rw [← heq, List.getElem_range]

/-- What the handle of a minting stands for. -/
theorem info?_of_getElem? (h : Minted mintings handles map) {i : Nat} {minting : Minting}
    {handle : Handle} (hminting : mintings[i]? = some minting)
    (hhandle : handles[i]? = some handle) : map.info? handle = some (map.infoOf minting) := by
  rw [h.getElem?_handles hhandle]
  exact h.info?_eq i minting hminting

/-- The handles come in the order of their numbers. -/
theorem pairwise_before (h : Minted mintings handles map) :
    handles.Pairwise fun a b => a.before b := by
  rw [h.handles_eq, List.pairwise_map]
  refine List.pairwise_lt_range.imp fun hlt => ?_
  exact decide_eq_true hlt

theorem fits (h : Minted mintings handles map) (hbound : mintings.length ≤ Handle.capacity)
    {handle : Handle} (hhandle : handle ∈ handles) : handle.Fits := by
  obtain ⟨i, hi, rfl⟩ := h.mem_handles.mp hhandle
  exact Nat.lt_of_lt_of_le hi hbound

end Minted

/-! ### Chains of annotations -/

/-- In a run of mintings, a handle is reached from `origin` by annotating: `origin` was annotated,
then the handle that this gave, and so on. The note is that of the last annotation. -/
inductive Annotations (mintings : List Minting) (handles : List Handle) (origin : Handle) :
    Handle → String → Prop
  | once {i : Nat} {handle : Handle} {note : String} :
    mintings[i]? = some (.annotated origin note) → handles[i]? = some handle →
    Annotations mintings handles origin handle note
  | again {i : Nat} {middle handle : Handle} {earlier note : String} :
    Annotations mintings handles origin middle earlier →
    mintings[i]? = some (.annotated middle note) → handles[i]? = some handle →
    Annotations mintings handles origin handle note

/-- A chain of annotations keeps the position of its origin and the note of its last link. -/
theorem Annotations.info?_eq {mintings : List Minting} {handles : List Handle} {map : SourceMap}
    {origin handle : Handle} {note : String}
    (h : Annotations mintings handles origin handle note) (hminted : Minted mintings handles map) :
    map.info? handle = some ⟨map.position? origin, some note⟩ := by
  induction h with
  | once hminting hhandle => exact hminted.info?_of_getElem? hminting hhandle
  | again _ hminting hhandle ih =>
    rw [hminted.info?_of_getElem? hminting hhandle]
    -- the handle in the middle has the position of the origin already
    rw [infoOf, position?, ih]
    rfl

/-! ### The laws of a run -/

/-- What the client of a source map can rely on, after the given mintings. -/
structure Lawful (mintings : List Minting) (handles : List Handle) (map : SourceMap) : Prop where
  /-- There is a handle for each minting, and the map knows these and the unknown one. -/
  length_eq : handles.length = mintings.length
  knows_iff : ∀ handle, map.Knows handle ↔ handle = .unknown ∨ handle ∈ handles
  /-- No handle is given twice, or is the unknown one, and later ones come later in their order. -/
  nodup : handles.Nodup
  unknown_not_mem : .unknown ∉ handles
  increasing : handles.Pairwise fun a b => a.before b
  /-- The same for the words that the handles are kept as, from which they can be had back. -/
  words_increasing : (handles.map Handle.word).Pairwise (· < ·)
  words_nonzero : ∀ handle ∈ handles, handle.word ≠ Handle.unknown.word
  ofWord_word : ∀ handle ∈ handles, Handle.ofWord handle.word = handle
  /-- What a handle stands for never changes, whatever is minted later. -/
  kept : ∀ later more after, map.Mintings later more after → ∀ handle ∈ handles,
    after.info? handle = map.info? handle ∧ after.position? handle = map.position? handle
  /-- A chain of annotations has the position of its origin and the note of its last link. -/
  annotations : ∀ origin handle note, Annotations mintings handles origin handle note →
    map.position? handle = map.position? origin ∧
      (map.info? handle).bind SourceInfo.note = some note
  /-- The position of an origin: none if it is unknown or belongs nowhere, and otherwise its own. -/
  unknown_position : map.position? .unknown = none
  synthetic_position : ∀ (i : Nat) note handle, mintings[i]? = some (.synthetic note) →
    handles[i]? = some handle → map.position? handle = none
  own_position : ∀ (i : Nat) position handle, mintings[i]? = some (.position position) →
    handles[i]? = some handle → map.position? handle = some position

/-- **The laws of every run** of at most as many mintings as words can tell apart. -/
theorem mintings_lawful {mintings : List Minting} {handles : List Handle} {map : SourceMap}
    (h : empty.Mintings mintings handles map) (hbound : mintings.length ≤ Handle.capacity) :
    Lawful mintings handles map := by
  have hminted := h.minted
  have hpairwise := hminted.pairwise_before
  constructor
  case length_eq => rw [hminted.handles_eq, List.length_map, List.length_range]
  case knows_iff => exact fun handle => hminted.knows_iff
  case nodup =>
    refine hpairwise.imp fun {a b} hbefore heq => ?_
    rw [heq] at hbefore
    cases b with
    | unknown => cases hbefore
    | entry index => exact Nat.lt_irrefl index (of_decide_eq_true hbefore)
  case unknown_not_mem =>
    intro hmem
    obtain ⟨i, -, heq⟩ := hminted.mem_handles.mp hmem
    cases heq
  case increasing => exact hpairwise
  case words_increasing =>
    rw [List.pairwise_map]
    refine hpairwise.imp_of_mem fun ha hb hbefore => ?_
    exact (Handle.word_lt_word (hminted.fits hbound ha) (hminted.fits hbound hb)).mpr hbefore
  case words_nonzero =>
    intro handle hhandle hzero
    have hback := Handle.ofWord_word (hminted.fits hbound hhandle)
    obtain ⟨i, -, rfl⟩ := hminted.mem_handles.mp hhandle
    rw [hzero] at hback
    cases hback
  case ofWord_word => exact fun handle hhandle => Handle.ofWord_word (hminted.fits hbound hhandle)
  case kept =>
    intro later more after hlater handle hhandle
    have hknows := hminted.knows_iff.mpr (.inr hhandle)
    have hextends := hlater.extends_before
    exact ⟨hextends.info?_eq hknows, hextends.position?_eq hknows⟩
  case annotations =>
    intro origin handle note hchain
    have hinfo := hchain.info?_eq hminted
    rw [position?, hinfo]
    exact ⟨rfl, rfl⟩
  case unknown_position => rfl
  case synthetic_position =>
    intro i note handle hminting hhandle
    rw [position?, hminted.info?_of_getElem? hminting hhandle]
    rfl
  case own_position =>
    intro i position handle hminting hhandle
    rw [position?, hminted.info?_of_getElem? hminting hhandle]
    rfl

/-- A position that is annotated twice, and a generated node between the two. -/
theorem mintings_lawful_annotated :
    ∃ mintings handles map, empty.Mintings mintings handles map ∧
      mintings.length ≤ Handle.capacity ∧ Lawful mintings handles map ∧
      handles.map Handle.word = [1, 2, 3, 4] ∧
      Annotations mintings handles (.entry 0) (.entry 3) "second" ∧
      map.position? (.entry 3) = some ⟨3, 7⟩ := by
  let first := (empty.perform (.position ⟨3, 7⟩)).2
  let second := (first.perform (.annotated (.entry 0) "first")).2
  let third := (second.perform (.synthetic "generated")).2
  let mintings : List Minting := [.position ⟨3, 7⟩, .annotated (.entry 0) "first",
    .synthetic "generated", .annotated (.entry 1) "second"]
  let handles : List Handle := [.entry 0, .entry 1, .entry 2, .entry 3]
  have hposition : empty.Allows (.position ⟨3, 7⟩) := trivial
  have hfirst : first.Allows (.annotated (.entry 0) "first") := Nat.one_pos
  have hsynthetic : second.Allows (.synthetic "generated") := trivial
  have hsecond : third.Allows (.annotated (.entry 1) "second") := Nat.one_lt_succ_succ 1
  have h : empty.Mintings mintings handles (third.perform (.annotated (.entry 1) "second")).2 :=
    .mint (.mint (.mint (.mint .start hposition) hfirst) hsynthetic) hsecond
  have hmiddle : Annotations mintings handles (.entry 0) (.entry 1) "first" :=
    .once (show mintings[1]? = _ from rfl) rfl
  have hchain : Annotations mintings handles (.entry 0) (.entry 3) "second" :=
    .again hmiddle (show mintings[3]? = _ from rfl) rfl
  have hlawful := mintings_lawful h (by decide)
  refine ⟨_, _, _, h, by decide, hlawful, by decide, hchain, ?_⟩
  rw [(hlawful.annotations _ _ _ hchain).1]
  exact hlawful.own_position 0 ⟨3, 7⟩ _ rfl rfl

end SourceMap

end FlowDesugar
