/-
BetweenUS.Manager.DatabaseRefinement — `saveNewUser` and `loadUser` through
the database SDK.

`Manager.Database` takes the database to be a store of values. Below it are
the conversion of the dictionary to a node, the pending writes of the repo,
and the conversion of the node that is shown back to a value. Here the two
are run side by side, over every list of saves and settlements:

* `Sends` — what the SDK is told: a save sets the node that `nodeFrom` makes
  of the dictionary of `saveNewUser`;
* `nodeFrom_newUserEntries` — that node; the `nil` entry leaves nothing;
* `userOfSnapshot_userNode` — what `loadUser` decodes from it;
* `loadUser_run` — after every run, `loadUser` through the SDK calls back
  with what `Manager.loadUser` says.

An account is one whose identifier is an ASCII key that does not spell a
negative zero, as those of Firebase are, and whose texts fit into a leaf.
-/
import BetweenUS.FirebaseDatabase.FSnapshotRoundTrip
import BetweenUS.FirebaseDatabase.UserNodes
import BetweenUS.Manager.FBUserDatabaseTheorems

namespace BetweenUS.FirebaseDatabase.FNode

variable {κ κ' ν : Type}

mutual

/-- The same node with its keys renamed. -/
def mapKeys (f : κ → κ') : FNode κ ν → FNode κ' ν
  | leaf value priority => leaf value priority
  | children priority entries => children priority (mapEntryKeys f entries)

def mapEntryKeys (f : κ → κ') : List (κ × FNode κ ν) → List (κ' × FNode κ' ν)
  | [] => []
  | (key, childNode) :: rest => (f key, mapKeys f childNode) :: mapEntryKeys f rest

end

end BetweenUS.FirebaseDatabase.FNode

namespace BetweenUS.Manager

open BetweenUS.Model BetweenUS.Storage BetweenUS.FirebaseDatabase
open FSnapshotUtilities FValidation

/-! ## Accounts -/

/-- A key of a node under `users`. -/
@[ext] structure AccountKey extends AsciiKey where
  valid : isValidKey text = true
deriving DecidableEq

structure Account where
  user : User
  key : AccountKey
  id_eq : user.id = key.text
  fits : ∀ s ∈ [user.id, user.email, user.name, user.nickName, user.birthday],
    s.utf8ByteSize ≤ kFirebaseMaxLeafSize

/-! ## The node of a user -/

/-- The dictionary of `saveNewUser` as `setValue` gets it: a `nil` is
bridged to `NSNull`. -/
def bridged (entries : List (String × Option String)) : FBValue :=
  .dict (entries.map fun e => (e.1, (e.2.map FBValue.string).getD .null))

/-- The stored properties, in the order of their keys. -/
def userFields (user : User) : List (AsciiKey × String) :=
  [(⟨"birthday", by decide, by simp⟩, user.birthday),
   (⟨"email", by decide, by simp⟩, user.email),
   (⟨"id", by decide, by simp⟩, user.id),
   (⟨"name", by decide, by simp⟩, user.name),
   (⟨"nickName", by decide, by simp⟩, user.nickName)]

/-- A node with a text for each field. -/
def fieldsNode (fields : List (AsciiKey × String)) : FNode AsciiKey FBValue :=
  .children none (fields.map fun e => (e.1, .leaf (.string e.2) none))

theorem mapKeys_fieldsNode (fields : List (AsciiKey × String)) :
    (fieldsNode fields).mapKeys AsciiKey.text =
      .children none (fields.map fun e => (e.1.text, .leaf (.string e.2) none)) := by
  have hentries : ∀ fields : List (AsciiKey × String), FNode.mapEntryKeys AsciiKey.text
      (fields.map fun e => (e.1, (FNode.leaf (.string e.2) none : FNode AsciiKey FBValue))) =
        fields.map fun e => (e.1.text, .leaf (.string e.2) none) := by
    intro fields
    induction fields with
    | nil => rfl
    | cons e fields ih =>
      rw [List.map_cons, FNode.mapEntryKeys, ih]
      rfl
  rw [fieldsNode, FNode.mapKeys, hentries]

theorem pairwise_userFields (user : User) :
    (userFields user).Pairwise fun a b => keyComparator a.1.text b.1.text = .lt := by
  have hkeys : ["birthday", "email", "id", "name", "nickName"].Pairwise
      fun a b => keyComparator a b = .lt := by decide
  have hmap : (userFields user).map (fun e => e.1.text) =
      ["birthday", "email", "id", "name", "nickName"] := rfl
  exact List.pairwise_map.mp (hmap ▸ hkeys)

theorem wf_userNode (user : User) : FNode.WF (fieldsNode (userFields user)) := by
  have hentries : ∀ x ∈ (userFields user).map fun e =>
      (e.1, (FNode.leaf (.string e.2) none : FNode AsciiKey FBValue)),
      FNode.WF x.2 ∧ x.2.isEmpty = false := by
    intro x hx
    obtain ⟨e, -, rfl⟩ := List.mem_map.mp hx
    exact ⟨.leaf _ _, rfl⟩
  have hasc : Sorted.Ascending FKey.keyComparator ((userFields user).map fun e =>
      (e.1, (FNode.leaf (.string e.2) none : FNode AsciiKey FBValue))) :=
    List.pairwise_map.mpr (pairwise_userFields user)
  exact .children none _ _ hasc (fun x hx => (hentries x hx).1) fun x hx => (hentries x hx).2

/-- The texts of a dictionary become leaves, and nothing is left of a
`nil`. -/
theorem childrenFrom_bridged (fn : String) {entries : List (String × Option String)}
    (hkeys : ∀ e ∈ entries, isValidKey e.1 = true)
    (hfits : ∀ e ∈ entries, ∀ s ∈ e.2, s.utf8ByteSize ≤ kFirebaseMaxLeafSize) :
    childrenFrom fn 0 [] (entries.map fun e => (e.1, (e.2.map FBValue.string).getD .null)) =
      .ok (entries.filterMap fun e => e.2.map fun s => (e.1, .leaf (.string s) none)) := by
  induction entries with
  | nil => rw [List.map_nil, childrenFrom]; rfl
  | cons e entries ih =>
    have hrest := ih (fun x hx => hkeys x (List.mem_cons_of_mem e hx))
      fun x hx => hfits x (List.mem_cons_of_mem e hx)
    obtain ⟨key, text⟩ := e
    have hkey := hkeys (key, text) List.mem_cons_self
    cases text with
    | none =>
      refine childrenFrom_cons_eq_ok_iff.mpr (.inr ⟨hkey, .emptyNode, _, ?_, hrest, rfl⟩)
      exact internalNodeFrom_null_eq_ok_iff.mpr ⟨by decide, rfl⟩
    | some s =>
      refine childrenFrom_cons_eq_ok_iff.mpr
        (.inr ⟨hkey, .leaf (.string s) none, _, ?_, hrest, rfl⟩)
      have hleaf : isLeafValue (.string s) = true :=
        decide_eq_true (hfits (key, some s) List.mem_cons_self s rfl)
      exact internalNodeFrom_leafValue (by decide) hleaf (by simp)

/-- What `setValue` stores for a new user. -/
theorem nodeFrom_newUserEntries (fn : String) (account : Account) :
    nodeFrom fn .null (bridged (newUserEntries account.user)) =
      .ok ((fieldsNode (userFields account.user)).mapKeys AsciiKey.text) := by
  have hkeys : ∀ e ∈ newUserEntries account.user, isValidKey e.1 = true := by
    have hall : ∀ key ∈ ["id", "email", "name", "nickName", "birthday", "connect"],
        isValidKey key = true := by decide
    exact fun e he => hall e.1 (List.mem_map_of_mem (f := Prod.fst) he)
  have hfits : ∀ e ∈ newUserEntries account.user, ∀ s ∈ e.2,
      s.utf8ByteSize ≤ kFirebaseMaxLeafSize := by
    have hall := account.fits
    simp only [newUserEntries, List.mem_cons, List.not_mem_nil, or_false, forall_eq_or_imp,
      forall_eq, Option.mem_some_iff, forall_eq'] at hall ⊢
    simp [hall]
  have hasc : Sorted.Ascending keyComparator ((userFields account.user).map fun e =>
      (e.1.text, (FNode.leaf (.string e.2) none : Node))) :=
    List.pairwise_map.mpr (pairwise_userFields account.user)
  have hchildren := childrenFrom_bridged fn hkeys hfits
  rw [mapKeys_fieldsNode, nodeFrom, bridged, ← List.append_nil (List.map _ _)]
  have hpriority : ∀ p ∈ (none : Option FBValue), isPriority p = true ∧ p ≠ .null := by simp
  refine internalNodeFrom_children (by decide) hpriority ?_ hchildren
    (childrenNode_of_perm hasc (by simp [userFields]) ?_)
  · intro x hx
    obtain ⟨e, he, rfl⟩ := List.mem_map.mp hx
    exact hkeys e he
  · -- the dictionary literal has the birthday last
    exact (List.perm_append_singleton _ _).symm.trans (.swap _ _ _)

/-- Children whose first key starts with no digit come back in a
dictionary. -/
theorem exportChildren_of_text (decimalDigit : Char → Bool) {key : String} {c : Char}
    (hkey : key.toList.head? = some c) (hc : c.isDigit = false) (value : FBValue)
    (rest : List (String × FBValue)) :
    FNode.exportChildren decimalDigit false none ((key, value) :: rest) =
      .dict ((key, value) :: rest) := by
  rcases exportChildren_cases decimalDigit false none ((key, value) :: rest) with hdict | hint
  · simpa using hdict
  · obtain ⟨-, largest, -, hint, -⟩ := hint
    obtain ⟨-, i, hi, -⟩ := (integerKeys_spec hint).2 key (by simp)
    have hscan : scanInteger key.toList = none := by
      cases hlist : key.toList with
      | nil => rfl
      | cons d ds =>
        obtain rfl : d = c := by simpa [hlist] using hkey
        simp [scanInteger, hc]
    simp [intForString, hscan] at hi

/-- What `loadUser` decodes from it. -/
theorem userOfSnapshot_userNode (decimalDigit : Char → Bool) (user : User) :
    userOfSnapshot (((fieldsNode (userFields user)).mapKeys AsciiKey.text).val decimalDigit) =
      some { user with content := none } := by
  have hval : ((fieldsNode (userFields user)).mapKeys AsciiKey.text).val decimalDigit =
      .dict ((userFields user).map fun e => (e.1.text, .string e.2)) := by
    have hfirst : "birthday".toList.head? = some 'b' := by decide
    have hleaf : ∀ s : String,
        FNode.valForExport decimalDigit false (.leaf (.string s) none) = .string s :=
      fun s => valForExport_leaf (.string s) (by simp)
    rw [mapKeys_fieldsNode, FNode.val, FNode.valForExport, valsForExport_eq_map, List.map_map,
      if_neg (by simp [userFields])]
    simp only [Function.comp_def, hleaf]
    exact exportChildren_of_text decimalDigit hfirst rfl _ _
  rw [hval]
  rfl

/-! ## Runs -/

/-- What the client and the server do to the nodes of accounts. -/
inductive RecordEvent where
  | saveNewUser (account : Account)
  | accepted (i : Nat)
  | rejected (i : Nat)

def usersKey : PlainKey AsciiKey := ⟨⟨"users", by decide, by simp⟩, by decide⟩

/-- No account goes by the name `.priority`. -/
def AccountKey.plainKey (key : AccountKey) : PlainKey AsciiKey :=
  ⟨key.toAsciiKey, by
    intro heq
    have htext : key.text = ".priority" := congrArg AsciiKey.text heq
    have hvalid := key.valid
    rw [htext] at hvalid
    revert hvalid
    decide⟩

def AccountKey.dbKey (key : AccountKey) : DbKey := ⟨key.text, key.valid⟩

/-- The event as the SDK sees it: `setValue` converts the dictionary, and
sets the node it became. -/
inductive Sends : RecordEvent → UserNodes.Event AsciiKey FBValue → Prop
  | saveNewUser {account : Account} {node : ValidNode AsciiKey FBValue} :
      nodeFrom "setValue:" .null (bridged (newUserEntries account.user)) =
        .ok (node.1.mapKeys AsciiKey.text) →
      Sends (.saveNewUser account) (.setValue account.key.plainKey node)
  | accepted (i : Nat) : Sends (.accepted i) (.accepted i)
  | rejected (i : Nat) : Sends (.rejected i) (.rejected i)

/-- No dictionary of `saveNewUser` is refused. -/
theorem exists_sends (es : List RecordEvent) : ∃ sent, List.Forall₂ Sends es sent := by
  induction es with
  | nil => exact ⟨[], .nil⟩
  | cons e es ih =>
    obtain ⟨sent, hsent⟩ := ih
    cases e with
    | saveNewUser account =>
      let node : ValidNode AsciiKey FBValue :=
        ⟨fieldsNode (userFields account.user), wf_userNode account.user⟩
      have hnode : Sends (.saveNewUser account) (.setValue account.key.plainKey node) :=
        .saveNewUser (nodeFrom_newUserEntries "setValue:" account)
      exact ⟨_, .cons hnode hsent⟩
    | accepted i => exact ⟨_, .cons (.accepted i) hsent⟩
    | rejected i => exact ⟨_, .cons (.rejected i) hsent⟩

/-- The event as the manager sees it. -/
def databaseStep (db : Database) : RecordEvent → Database
  | .saveNewUser account => (saveNewUser db account.user).getD db
  | .accepted i => db.acknowledge i
  | .rejected i => db.revert i

/-- What both come to: a user for each account, or none. -/
def recordStep (s : Store AccountKey (Option User)) : RecordEvent → Store AccountKey (Option User)
  | .saveNewUser account => s.write account.key (some { account.user with content := none })
  | .accepted i => s.acknowledge i
  | .rejected i => s.revert i

theorem AccountKey.plainKey_injective : Function.Injective AccountKey.plainKey := by
  intro a b h
  exact AccountKey.ext (congrArg (fun k => k.1.text) h)

theorem AccountKey.dbKey_injective : Function.Injective AccountKey.dbKey := by
  intro a b h
  exact AccountKey.ext (congrArg DbKey.val h)

/-- `loadUser`'s closure on the value of a node. -/
def userOfNode (decimalDigit : Char → Bool) (n : FNode AsciiKey FBValue) : Option User :=
  userOfSnapshot ((n.mapKeys AsciiKey.text).val decimalDigit)

section Run

variable {decimalDigit : Char → Bool}

/-- One event keeps what is read from the nodes. -/
theorem shows_storeStep {s : Store (PlainKey AsciiKey) (FNode AsciiKey FBValue)}
    {u : Store AccountKey (Option User)}
    (h : Store.Shows AccountKey.plainKey (userOfNode decimalDigit) s u) {e : RecordEvent}
    {sent : UserNodes.Event AsciiKey FBValue} (he : Sends e sent) :
    Store.Shows AccountKey.plainKey (userOfNode decimalDigit) (UserNodes.storeStep s sent)
      (recordStep u e) := by
  cases he with
  | @saveNewUser account node hnode =>
    rw [nodeFrom_newUserEntries, Except.ok.injEq] at hnode
    have hwrite := h.write account.key node.1
    rw [userOfNode, ← hnode, userOfSnapshot_userNode] at hwrite
    exact hwrite
  | accepted i => exact h.acknowledge AccountKey.plainKey_injective i
  | rejected i => exact h.revert i

/-- And what is read from the values. -/
theorem shows_databaseStep {db : Database} {u : Store AccountKey (Option User)}
    (h : Store.Shows AccountKey.dbKey userOfSnapshot db u) (e : RecordEvent) :
    Store.Shows AccountKey.dbKey userOfSnapshot (databaseStep db e) (recordStep u e) := by
  cases e with
  | saveNewUser account =>
    have hchild : DbKey.child account.user.id = some account.key.dbKey := by
      rw [account.id_eq]
      exact child_of_isValidKey account.key.valid
    have hwrite := h.write account.key (setValueNode (newUserEntries account.user))
    rw [userOfSnapshot_newUser] at hwrite
    rw [databaseStep, saveNewUser_of_child hchild]
    exact hwrite
  | accepted i => exact h.acknowledge AccountKey.dbKey_injective i
  | rejected i => exact h.revert i

end Run

/-- The key of an account, if it is one. -/
def AccountKey.of? (key : DbKey) : Option AccountKey :=
  if h : ¬ NegativeZero key.val ∧ ∀ c ∈ key.val.toList, c.toNat < 128 then
    some ⟨⟨key.val, h.1, h.2⟩, key.valid⟩
  else none

theorem AccountKey.of?_dbKey (key : AccountKey) : AccountKey.of? key.dbKey = some key := by
  rw [AccountKey.of?, dif_pos ⟨key.plain, key.ascii⟩]
  rfl

/-- The database of a server tree, nothing pending. -/
def databaseOf (decimalDigit : Char → Bool) (root : ValidNode AsciiKey FBValue) : Database where
  server key :=
    match AccountKey.of? key with
    | some account =>
        ((root.1.getChild (UserNodes.place usersKey account.plainKey)).mapKeys
          AsciiKey.text).val decimalDigit
    | none => .null
  pending := []

/-- `loadUser(id:)` through the SDK: the node that the client shows, its
value, and the closure of `loadUser` on it. -/
def loadUserShown (decimalDigit : Char → Bool) (c : UserNodes.Client AsciiKey FBValue)
    (key : AccountKey) : Option User :=
  (c.shown usersKey key.plainKey).bind (userOfNode decimalDigit)

/-- From every tree of the server, after every list of saves and
settlements in any order, a load through the SDK gives what a load from
the manager's database gives. -/
theorem loadUser_run (decimalDigit : Char → Bool) (root : ValidNode AsciiKey FBValue)
    (es : List RecordEvent) (key : AccountKey) :
    (∃ sent, List.Forall₂ Sends es sent) ∧ ∀ sent, List.Forall₂ Sends es sent →
      loadUserShown decimalDigit (Runs.run (UserNodes.Client.step usersKey)
          (UserNodes.Client.start root) sent) key =
        loadUser (Runs.run databaseStep (databaseOf decimalDigit root) es) key.text := by
  refine ⟨exists_sends es, fun sent hsent => ?_⟩
  -- what both read from the server before the first event
  let start : Store AccountKey (Option User) :=
    ⟨fun account => userOfNode decimalDigit
      (root.1.getChild (UserNodes.place usersKey account.plainKey)), []⟩
  have hnodes : Store.Shows AccountKey.plainKey (userOfNode decimalDigit)
      (Runs.run UserNodes.storeStep (UserNodes.storeStart usersKey root) sent)
      (Runs.run recordStep start es) := by
    have hstart : Store.Shows AccountKey.plainKey (userOfNode decimalDigit)
        (UserNodes.storeStart usersKey root) start := ⟨fun _ => rfl, rfl⟩
    exact Runs.simulation_run_forall₂ (E := fun sent e => Sends e sent)
      (R := Store.Shows AccountKey.plainKey (userOfNode decimalDigit))
      (fun _ _ _ _ h he => shows_storeStep h he) hstart hsent.flip
  have hvalues : Store.Shows AccountKey.dbKey userOfSnapshot
      (Runs.run databaseStep (databaseOf decimalDigit root) es) (Runs.run recordStep start es) := by
    have hstart : Store.Shows AccountKey.dbKey userOfSnapshot (databaseOf decimalDigit root)
        start := by
      refine ⟨fun account => ?_, rfl⟩
      simp only [databaseOf, AccountKey.of?_dbKey]
      rfl
    exact Runs.simulation_run (R := Store.Shows AccountKey.dbKey userOfSnapshot)
      (fun _ _ e h => shows_databaseStep h e) hstart es
  rw [loadUserShown, (UserNodes.refines_run usersKey root _).shown_eq, Option.bind_some,
    hnodes.view AccountKey.plainKey_injective, ← hvalues.view AccountKey.dbKey_injective, loadUser,
    child_of_isValidKey key.valid, Option.bind_some]
  rfl

end BetweenUS.Manager
