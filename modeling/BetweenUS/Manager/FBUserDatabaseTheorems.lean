/-
BetweenUS.Manager.FBUserDatabaseTheorems — what `loadUser` gives back
after any history of `saveNewUser` calls.

The reference is `lastSaved`: the last user saved under an id, whatever
else was saved. A history also contains the server's acknowledgements,
which come in the order the writes were issued and are invisible
(`Store.view_acknowledge`).

`view_saveAll` ties the two: the node under an id is the node of the last
user saved there. `userOfSnapshot_newUser` reads one node back, and shows
what is lost on the way: the written dictionary has no `content` entry,
so EVERY user comes back with `content` nil. The round trip is therefore
the identity exactly on users whose content is nil or empty
(`loadUser_saveAll_iff`).
-/
import BetweenUS.Manager.FBUserDatabase

namespace BetweenUS.Manager

open BetweenUS.Model BetweenUS.Storage

/-! ## Histories -/

inductive SaveStep where
  | save (user : User)
  /-- The server accepts the oldest unsettled write. -/
  | acknowledged
  deriving DecidableEq, Repr

def saveStep (db : Database) : SaveStep → Option Database
  | .save user => saveNewUser db user
  | .acknowledged => some (db.acknowledge 0)

def saveAll (db : Database) (steps : List SaveStep) : Option Database :=
  steps.foldlM saveStep db

/-- The reference map, one step at a time. -/
def lastSavedStep (id : String) (last : Option User) : SaveStep → Option User
  | .save user => if user.id = id then some user else last
  | .acknowledged => last

/-- The last user saved under `id`. -/
def lastSaved (id : String) (steps : List SaveStep) : Option User :=
  steps.foldl (lastSavedStep id) none

/-- Equality of all six fields, `content` up to nil against empty: the
database does not store an empty array. -/
def SameUser (a b : User) : Prop :=
  a.id = b.id ∧ a.email = b.email ∧ a.name = b.name ∧ a.nickName = b.nickName ∧
    a.birthday = b.birthday ∧ a.content.getD [] = b.content.getD []

/-! ## One save -/

theorem saveNewUser_of_child {db : Database} {user : User} {key : DbKey}
    (h : DbKey.child user.id = some key) :
    saveNewUser db user
      = some (db.write key (setValueNode (newUserEntries user))) := by
  simp [saveNewUser, h]

theorem child_of_isValidKey {id : String} (h : isValidKey id = true) :
    DbKey.child id = some ⟨id, h⟩ := by
  simp [DbKey.child, h]

/-- A saved node decodes, and to everything but the content. -/
theorem userOfSnapshot_newUser (user : User) :
    userOfSnapshot (setValueNode (newUserEntries user))
      = some { user with content := none } := by
  rfl

/-! ## Any history -/

/-- One step against the reference map. `base` is what the node held
before the history began. -/
theorem view_saveStep {db db' : Database} {st : SaveStep} {k : DbKey}
    {base : FBValue} {last : Option User}
    (hview : db.view k = (last.map fun u => setValueNode (newUserEntries u)).getD base)
    (hstep : saveStep db st = some db') :
    db'.view k
      = ((lastSavedStep k.val last st).map fun u => setValueNode (newUserEntries u)).getD
          base := by
  cases st with
  | acknowledged =>
    obtain rfl : db.acknowledge 0 = db' := by simpa [saveStep] using hstep
    rw [Store.view_acknowledge db 0 k (by simp), hview]
    rfl
  | save user =>
    simp only [saveStep, saveNewUser, Option.map_eq_some_iff] at hstep
    obtain ⟨key, hkey, rfl⟩ := hstep
    have hid : key.val = user.id := by
      unfold DbKey.child at hkey
      split at hkey
      · cases hkey; rfl
      · cases hkey
    rw [Store.view_write, lastSavedStep, ← hid]
    by_cases hk : key = k
    · rw [if_pos hk, if_pos (by rw [hk])]
      rfl
    · rw [if_neg hk, if_neg (fun h => hk (DbKey.ext h))]
      exact hview

theorem view_foldlM {steps : List SaveStep} {db db' : Database} {k : DbKey}
    {base : FBValue} {last : Option User}
    (hview : db.view k = (last.map fun u => setValueNode (newUserEntries u)).getD base)
    (hrun : steps.foldlM saveStep db = some db') :
    db'.view k
      = ((steps.foldl (lastSavedStep k.val) last).map
          fun u => setValueNode (newUserEntries u)).getD base := by
  induction steps generalizing db last with
  | nil =>
    obtain rfl : db = db' := by simpa using hrun
    exact hview
  | cons st steps ih =>
    rw [List.foldlM_cons] at hrun
    obtain ⟨db₁, hst, hrest⟩ := Option.bind_eq_some_iff.mp hrun
    rw [List.foldl_cons]
    exact ih (view_saveStep hview hst) hrest

/-- After a history a node holds what was last saved there, and is
otherwise what it was. -/
theorem view_saveAll {steps : List SaveStep} {db db' : Database} (k : DbKey)
    (hrun : saveAll db steps = some db') :
    db'.view k
      = ((lastSaved k.val steps).map fun u => setValueNode (newUserEntries u)).getD
          (db.view k) := by
  have hstart : db.view k
      = ((none : Option User).map fun u => setValueNode (newUserEntries u)).getD
          (db.view k) := rfl
  exact view_foldlM hstart hrun

/-- Saves under legal keys all go through. -/
theorem exists_saveAll (steps : List SaveStep) (db : Database)
    (hkeys : ∀ user, SaveStep.save user ∈ steps → isValidKey user.id = true) :
    ∃ db', saveAll db steps = some db' := by
  induction steps generalizing db with
  | nil => exact ⟨db, rfl⟩
  | cons st steps ih =>
    obtain ⟨db₁, h₁⟩ : ∃ db₁, saveStep db st = some db₁ := by
      cases st with
      | acknowledged => exact ⟨_, rfl⟩
      | save user =>
        exact ⟨_, saveNewUser_of_child (child_of_isValidKey (hkeys user (by simp)))⟩
    obtain ⟨db', h'⟩ := ih db₁ (fun u hu => hkeys u (by simp [hu]))
    refine ⟨db', ?_⟩
    rw [saveAll, List.foldlM_cons, h₁]
    exact h'

theorem isValidKey_of_lastSaved {id : String} {steps : List SaveStep} {user : User}
    (hkeys : ∀ user, SaveStep.save user ∈ steps → isValidKey user.id = true)
    (hlast : lastSaved id steps = some user) : isValidKey id = true := by
  -- the fold only ever answers with a user it was handed
  have hmem : ∀ (steps : List SaveStep) (last : Option User),
      (∀ u, last = some u → isValidKey id = true) →
      (∀ u, SaveStep.save u ∈ steps → isValidKey u.id = true) →
      ∀ u, steps.foldl (lastSavedStep id) last = some u → isValidKey id = true := by
    intro steps
    induction steps with
    | nil => intro last hl _ u hu; exact hl u hu
    | cons st steps ih =>
      intro last hl hk u hu
      refine ih (lastSavedStep id last st) ?_ (fun v hv => hk v (by simp [hv])) u hu
      intro v hv
      cases st with
      | acknowledged => exact hl v hv
      | save w =>
        by_cases hw : w.id = id
        · rw [← hw]; exact hk w (by simp)
        · rw [lastSavedStep, if_neg hw] at hv; exact hl v hv
  exact hmem steps none (by simp) hkeys user hlast

/-- What `loadUser` answers after a history: the last user saved under the
id, without its content. -/
theorem loadUser_saveAll {steps : List SaveStep} {db db' : Database} (id : String)
    (user : User) (hid : isValidKey id = true) (hrun : saveAll db steps = some db')
    (hlast : lastSaved id steps = some user) :
    loadUser db' id = some { user with content := none } := by
  have hview := view_saveAll ⟨id, hid⟩ hrun
  rw [hlast] at hview
  simp only [Option.map_some, Option.getD_some] at hview
  rw [loadUser, child_of_isValidKey hid, Option.bind_some, hview]
  exact userOfSnapshot_newUser user

/-- **The round trip, exactly.** After any history of saves under legal
keys, loading an id that was saved gives the user last saved there if
and only if that user's content is nil or empty. -/
theorem loadUser_saveAll_iff (db : Database) (steps : List SaveStep)
    (hkeys : ∀ user, SaveStep.save user ∈ steps → isValidKey user.id = true)
    (id : String) (user : User) (hlast : lastSaved id steps = some user) :
    ∃ db', saveAll db steps = some db' ∧
      ((∃ loaded, loadUser db' id = some loaded ∧ SameUser loaded user) ↔
        user.content = none ∨ user.content = some []) := by
  obtain ⟨db', hrun⟩ := exists_saveAll steps db hkeys
  refine ⟨db', hrun, ?_⟩
  have hload := loadUser_saveAll id user (isValidKey_of_lastSaved hkeys hlast) hrun hlast
  constructor
  · rintro ⟨loaded, hl, hsame⟩
    obtain rfl : { user with content := none } = loaded := by
      rw [hload] at hl; exact Option.some.inj hl
    have hcontent : [] = user.content.getD [] := hsame.2.2.2.2.2
    cases hc : user.content with
    | none => exact Or.inl rfl
    | some c => rw [hc] at hcontent; exact Or.inr (by rw [hcontent]; rfl)
  · intro hc
    refine ⟨_, hload, rfl, rfl, rfl, rfl, rfl, ?_⟩
    rcases hc with hc | hc <;> simp [hc]

/-- A database in which nothing is stored. -/
def emptyDatabase : Database := ⟨fun _ => .null, []⟩

/-- A user with the given content and nothing remarkable otherwise. -/
def sampleUser (content : Option (List String)) : User :=
  { id := "uid1", email := "a@b.co", name := "name", nickName := "nick",
    birthday := "2000년 01월 02일", content := content }

theorem loadUser_saveAll_iff_twice :
    ∃ db', saveAll emptyDatabase
        [.save (sampleUser (some ["x"])), .acknowledged, .save (sampleUser (some []))]
          = some db' ∧
      ((∃ loaded, loadUser db' "uid1" = some loaded ∧
          SameUser loaded (sampleUser (some []))) ↔
        (some [] : Option (List String)) = none ∨
          (some [] : Option (List String)) = some []) :=
  loadUser_saveAll_iff emptyDatabase _
    (by intro user hu; simp at hu; rcases hu with rfl | rfl <;> decide)
    "uid1" (sampleUser (some [])) (by decide)

/-- A user saved with one line of content does not come back: that
loading undoes saving fails on this history of one save. -/
theorem loadUser_loses_content :
    lastSaved "uid1" [.save (sampleUser (some ["x"]))] = some (sampleUser (some ["x"])) ∧
      ∃ db', saveAll emptyDatabase [.save (sampleUser (some ["x"]))] = some db' ∧
        ¬ ∃ loaded, loadUser db' "uid1" = some loaded ∧
          SameUser loaded (sampleUser (some ["x"])) := by
  obtain ⟨db', hrun⟩ := exists_saveAll [.save (sampleUser (some ["x"]))] emptyDatabase
    (by intro user hu; simp at hu; subst hu; decide)
  refine ⟨by decide, db', hrun, ?_⟩
  rintro ⟨loaded, hload, hsame⟩
  have h := loadUser_saveAll "uid1" (sampleUser (some ["x"])) (by decide) hrun (by decide)
  rw [h] at hload
  cases hload
  have hcontent : ([] : List String) = ["x"] := hsame.2.2.2.2.2
  simp at hcontent

end BetweenUS.Manager
