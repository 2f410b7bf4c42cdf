/-
BetweenUS.Manager.FBUserDatabase — `FBUserDatabase.swift` over the
`users` subtree of the Realtime Database.

The subtree is a `Storage.Store`: each `users/<id>` is a node of its own,
a node with nothing in it reads as `NSNull`, `setValue` replaces the
node, is visible to this client at once and is settled by the server
later.

Node keys are `DbKey`s. A key is legal when it is non-empty and has none
of the characters of `kInvalidKeyCharacters` (`FValidation.isValidKey`).
`child` of anything else is not a node under `users`: it raises, or, for
a text with a slash, addresses a node further down. `saveNewUser` and
`loadUser` answer `none` there.

`saveNewUser` writes a hand-built dictionary `[String: String?]`. ⚠️ Its
last entry is `"connect": nil`. A nil entry is not stored, and `User` has
no property of that name: `content` is what `User` calls its last
property, and no entry carries it.
-/
import BetweenUS.Model.User
import BetweenUS.Storage.PendingWrites

namespace BetweenUS.Manager

open BetweenUS.Model BetweenUS.Storage

/-! ## Keys -/

/-- `kInvalidKeyCharacters`. -/
def invalidKeyCharacters : List Char := ['[', ']', '.', '#', '$', '/']

/-- `FValidation.isValidKey`. -/
def isValidKey (key : String) : Bool :=
  !key.isEmpty && key.toList.all (fun c => !invalidKeyCharacters.contains c)

/-- A legal database key. -/
@[ext] structure DbKey where
  val : String
  valid : isValidKey val = true
  deriving DecidableEq, Repr

/-- `ref.child("users").child(id)`, when that is a node under `users`. -/
def DbKey.child (id : String) : Option DbKey :=
  if h : isValidKey id = true then some ⟨id, h⟩ else none

@[simp] theorem DbKey.child_val (k : DbKey) : DbKey.child k.val = some k := by
  unfold DbKey.child
  rw [dif_pos k.valid]

/-! ## saveNewUser and loadUser -/

/-- The `users` subtree as this client sees it. -/
abbrev Database := Store DbKey FBValue

/-- What `setValue` stores for a dictionary `[String: String?]`: the nil
entries are dropped, and a node without children is no node. -/
def setValueNode (entries : List (String × Option String)) : FBValue :=
  match entries.filterMap (fun e => e.2.map fun s => (e.1, FBValue.string s)) with
  | [] => .null
  | stored => .dict stored

/-- The dictionary literal of `saveNewUser`. -/
def newUserEntries (user : User) : List (String × Option String) :=
  [("id", some user.id),
   ("email", some user.email),
   ("name", some user.name),
   ("nickName", some user.nickName),
   ("birthday", some user.birthday),
   ("connect", none)]

/-- `saveNewUser(user:)`. -/
def saveNewUser (db : Database) (user : User) : Option Database :=
  (DbKey.child user.id).map fun key =>
    db.write key (setValueNode (newUserEntries user))

/-- The body of `loadUser`'s snapshot closure: the `User` its completion is
called with. A snapshot that is not a dictionary, and one that does not
decode, end it without a call. -/
def userOfSnapshot : FBValue → Option User
  | .dict entries =>
      match User.decode entries with
      | .ok user => some user
      | .error _ => none
  | _ => none

/-- `loadUser(id:)` when the read is answered from this client's view. -/
def loadUser (db : Database) (id : String) : Option User :=
  (DbKey.child id).bind fun key => userOfSnapshot (db.view key)

end BetweenUS.Manager
