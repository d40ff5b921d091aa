import FlowDesugar.Files.Store

/-!
# Stores that differ in one file

A store is only ever changed at one place, and only by writing a file there. What a path leads to
depends on the directories of a store alone, so two stores that are the same but for one place, at
which neither has a directory (`Store.SameBut`), lead every path to the same place
(`Store.SameBut.locate_iff`). They give the same answers about all paths that lead elsewhere, and
the same paths can be written to.

Writing is such a change: `Store.write_eq_ok` says what it does, and `Store.read?_of_write` that the
content is then found where it was written.
-/

namespace FlowDesugar.Files.Store

variable {store after a b : Store} {place : Place} {current : Place} {path : String}

/-! ### Entries -/

theorem get?_of_ne_nil (store : Store) (h : place ≠ []) :
    store.get? place = (store.entries.find? fun entry => entry.1 = place).map Prod.snd :=
  if_neg (by rwa [List.isEmpty_iff])

theorem get?_insert_self (store : Store) (entry : Files.Entry) (h : place ≠ []) :
    (store.insert place entry).get? place = some entry := by
  rw [get?_of_ne_nil _ h]
  simp [insert]

theorem get?_insert_of_ne (store : Store) (entry : Files.Entry) {other : Place}
    (h : other ≠ place) : (store.insert place entry).get? other = store.get? other := by
  cases other with
  | nil => rfl
  | cons name names =>
    have hne : name :: names ≠ [] := List.cons_ne_nil name names
    rw [get?_of_ne_nil _ hne, get?_of_ne_nil _ hne]
    unfold insert
    rw [List.find?_cons_of_neg (by simpa using fun heq => h heq.symm), List.find?_filter]
    -- an entry that is looked for is not one that was taken out
    refine congrArg (Option.map Prod.snd) (congrArg (List.find? · store.entries) (funext ?_))
    intro entry
    by_cases hentry : entry.1 = name :: names
    · simp [hentry, h]
    · simp [hentry]

/-! ### Two stores -/

/-- The stores are the same but for one place, at which neither has a directory. -/
structure SameBut (place : Place) (a b : Store) : Prop where
  elsewhere : ∀ other, other ≠ place → a.get? other = b.get? other
  left : a.get? place ≠ some .directory
  right : b.get? place ≠ some .directory

namespace SameBut

theorem symm (h : SameBut place a b) : SameBut place b a where
  elsewhere other hother := (h.elsewhere other hother).symm
  left := h.right
  right := h.left

/-- A directory of the one store is a directory of the other. -/
theorem directory (h : SameBut place a b) {other : Place}
    (hother : a.get? other = some .directory) : b.get? other = some .directory := by
  have hne : other ≠ place := by
    intro heq
    rw [heq] at hother
    exact h.left hother
  rw [← h.elsewhere other hne, hother]

theorem follow (h : SameBut place a b) {names : List String} {start target : Place}
    (hfollow : a.follow start names = .ok target) : b.follow start names = .ok target := by
  induction names generalizing start with
  | nil => exact hfollow
  | cons name names ih =>
    rw [Store.follow] at hfollow ⊢
    split
    · next hskip =>
      rw [if_pos hskip] at hfollow
      exact ih hfollow
    · next hskip =>
      rw [if_neg hskip] at hfollow
      split
      · next hup =>
        rw [if_pos hup] at hfollow
        exact ih hfollow
      · next hup =>
        rw [if_neg hup] at hfollow
        simp only at hfollow ⊢
        split
        · next hlast =>
          rw [if_pos hlast] at hfollow
          exact hfollow
        · next hlast =>
          rw [if_neg hlast] at hfollow
          -- the path goes on, so there is a directory on the way
          cases hentry : a.get? (start ++ [name]) with
          | none => rw [hentry] at hfollow; cases hfollow
          | some entry =>
            cases entry with
            | file content => rw [hentry] at hfollow; cases hfollow
            | directory =>
              rw [hentry] at hfollow
              rw [h.directory hentry]
              exact ih hfollow

theorem locate (h : SameBut place a b) {target : Place}
    (hlocate : a.locate current path = .ok target) : b.locate current path = .ok target := by
  unfold Store.locate at hlocate ⊢
  split
  · next hempty =>
    rw [if_pos hempty] at hlocate
    cases hlocate
  · next hempty =>
    rw [if_neg hempty] at hlocate
    exact h.follow hlocate

/-- **Every path leads to the same place** in both stores. -/
theorem locate_iff (h : SameBut place a b) {target : Place} :
    a.locate current path = .ok target ↔ b.locate current path = .ok target :=
  ⟨h.locate, h.symm.locate⟩

end SameBut

/-! ### Reading -/

/-- The content of a file. -/
def content? : Files.Entry → Option ByteArray
  | .file content => some content
  | .directory => none

theorem read?_of_locate {target : Place} (h : store.locate current path = .ok target) :
    store.read? current path = (store.get? target).bind content? := by
  simp only [read?, h]
  cases store.get? target with
  | none => rfl
  | some entry => cases entry <;> rfl

theorem read?_of_not_locate (h : ∀ target, store.locate current path ≠ .ok target) :
    store.read? current path = none := by
  cases hlocate : store.locate current path with
  | error error => rw [read?, hlocate]
  | ok target => exact absurd hlocate (h target)

/-- A path that leads elsewhere leads to the same content. -/
theorem SameBut.read?_eq (h : SameBut place a b) (hpath : a.locate current path ≠ .ok place) :
    a.read? current path = b.read? current path := by
  by_cases hleads : ∃ target, a.locate current path = .ok target
  · obtain ⟨target, htarget⟩ := hleads
    have hne : target ≠ place := by
      intro heq
      exact hpath (heq ▸ htarget)
    rw [read?_of_locate htarget, read?_of_locate (h.locate htarget), h.elsewhere target hne]
  · have ha : ∀ target, a.locate current path ≠ .ok target := fun target htarget =>
      hleads ⟨target, htarget⟩
    have hb : ∀ target, b.locate current path ≠ .ok target := fun target htarget =>
      ha target (h.locate_iff.mpr htarget)
    rw [read?_of_not_locate ha, read?_of_not_locate hb]

theorem SameBut.isFile_eq (h : SameBut place a b) (hpath : a.locate current path ≠ .ok place) :
    a.isFile current path = b.isFile current path :=
  congrArg Option.isSome (h.read?_eq hpath)

/-! ### Writing -/

/-- A path that does not end in a slash is written to as it stands. -/
theorem asked_eq (h : asksDirectory path = false) :
    String.ofList (Text.dropEnd (· = '/') path.toList) = path := by
  have hkept : Text.dropEnd (· = '/') path.toList = path.toList := by
    unfold Text.dropEnd
    cases hrev : path.toList.reverse with
    | nil => simpa using (congrArg List.reverse hrev).symm
    | cons last front =>
      have hlast : path.toList.getLast? = some last := by
        rw [← List.head?_reverse, hrev]
        rfl
      have hslash : last ≠ '/' := by
        intro heq
        unfold asksDirectory at h
        rw [hlast, heq] at h
        cases h
      rw [List.dropWhile_cons_of_neg (by simpa using hslash), ← hrev, List.reverse_reverse]
  rw [hkept, String.ofList_toList]

theorem write_of_asksDirectory (h : asksDirectory path = true) (content : ByteArray) :
    store.write current path content ≠ .ok after := by
  intro hwrite
  simp only [write, h, if_true] at hwrite
  -- the path may lead nowhere, but if it leads somewhere it is refused there
  generalize store.locate current _ = located at hwrite
  cases located with
  | error error => cases hwrite
  | ok place => cases hwrite

/-- **Writing** puts a file at the place that the path leads to, unless there is a directory. -/
theorem write_eq_ok {content : ByteArray} :
    store.write current path content = .ok after ↔
      asksDirectory path = false ∧ ∃ place, store.locate current path = .ok place ∧
        store.get? place ≠ some .directory ∧ after = store.insert place (.file content) := by
  cases hasks : asksDirectory path with
  | true =>
    constructor
    · intro h
      exact absurd h (write_of_asksDirectory hasks content)
    · rintro ⟨hfalse, -⟩
      cases hfalse
  | false =>
    simp only [write, hasks, asked_eq hasks, ite_self, bind, Except.bind]
    cases store.locate current path with
    | error error => simp
    | ok target =>
      cases hentry : store.get? target with
      | none => simp [hentry, pure, Except.pure, eq_comm]
      | some entry =>
        cases entry <;> simp [hentry, pure, Except.pure, throw, throwThe, MonadExceptOf.throw,
          eq_comm]

/-- What can be written to in the one store can be written to in the other. -/
theorem SameBut.write (h : SameBut place a b) {content : ByteArray}
    (hwrite : a.write current path content = .ok after) :
    ∃ after', b.write current path content = .ok after' := by
  obtain ⟨hasks, target, hlocate, hentry, -⟩ := write_eq_ok.mp hwrite
  have hentry' : b.get? target ≠ some .directory := fun hdirectory =>
    hentry (h.symm.directory hdirectory)
  exact ⟨_, write_eq_ok.mpr ⟨hasks, target, h.locate hlocate, hentry', rfl⟩⟩

/-- The place of a file is not the root. -/
theorem ne_nil_of_get? (h : store.get? place ≠ some .directory) : place ≠ [] := by
  rintro rfl
  exact h rfl

/-- Putting a file where there is no directory changes the store there only. -/
theorem sameBut_insert (h : store.get? place ≠ some .directory) (content : ByteArray) :
    SameBut place store (store.insert place (.file content)) where
  elsewhere _ hother := (get?_insert_of_ne store _ hother).symm
  left := h
  right := by
    rw [get?_insert_self store _ (ne_nil_of_get? h)]
    intro heq
    cases heq

/-- **What was written is found** where it was written, and nothing else has changed. -/
theorem read?_of_write {content : ByteArray}
    (h : store.write current path content = .ok after) :
    after.read? current path = some content ∧
      ∀ other, store.locate current other ≠ store.locate current path →
        after.read? current other = store.read? current other := by
  obtain ⟨-, place, hlocate, hentry, rfl⟩ := write_eq_ok.mp h
  have hsame := sameBut_insert hentry content
  constructor
  · rw [read?_of_locate (hsame.locate hlocate),
      get?_insert_self store _ (ne_nil_of_get? hentry)]
    rfl
  · intro other hother
    exact (hsame.read?_eq (by rwa [hlocate] at hother)).symm

end FlowDesugar.Files.Store
