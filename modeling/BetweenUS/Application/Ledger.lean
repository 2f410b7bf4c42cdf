/-
BetweenUS.Application.Ledger — the app as a book of accounts.

Of all that happens in the app, only three kinds of step touch accounts
and records: a sign-up tap is given a NEW account and writes its record,
the server settles a write, and a new process loses the writes that were
not settled. The ledger is the app with the rest left out: which tap was
given which account, the accounts there are, and the database.

`Ledger.Move` is what such a book can do, and `App.ledger_step` is the
refinement: every step of the app, whatever the screens and the session
do meanwhile, is a move of its ledger. The records are then a matter of
the ledger alone. Accounts are new, so no key is ever written twice
(`Ledger.Sound`), and a record once written stays until that very write is
rejected or lost (`Ledger.AllStored.move`).
-/
import BetweenUS.Application.StepTheorems
import BetweenUS.Storage.WriteOnce

namespace BetweenUS.Application

open BetweenUS.Model BetweenUS.Manager BetweenUS.Rogin BetweenUS.Storage

/-! ## The ledger -/

/-- An account a sign-up was given, the `User` saved for it, and whether
`authSuccessSubject` has fired for that sign-up. -/
structure Account where
  uid : Uid
  user : User
  reported : Bool

/-- The node `saveNewUser` writes for the account. -/
def Account.node (a : Account) : FBValue := setValueNode (newUserEntries a.user)

structure Ledger where
  /-- The account given to each tap. -/
  account : Nat → Option Account
  accounts : List Uid
  database : Database

/-- The account of `uid` was given to a tap. -/
def Ledger.Opened (l : Ledger) (uid : Uid) : Prop :=
  ∃ i a, l.account i = some a ∧ a.uid = uid

/-- A new account, given to tap `i`, and its record. -/
def Ledger.opens (l : Ledger) (i : Nat) (a : Account) : Ledger where
  account := Function.update l.account i (some a)
  accounts := a.uid :: l.accounts
  database := l.database.write a.uid a.node

def Ledger.settle (l : Ledger) (i : Nat) (accepted : Bool) : Ledger :=
  { l with database := if accepted then l.database.acknowledge i else l.database.revert i }

def Ledger.restart (l : Ledger) : Ledger := { l with database := l.database.restart }

/-- What a move does to the writes that are pending. -/
inductive Ledger.Label where
  | keeps
  | settles (i : Nat) (accepted : Bool)
  | restarts

/-- What a ledger can do. -/
inductive Ledger.Move (l : Ledger) : Ledger.Label → Ledger → Prop where
  | stays : Move l .keeps l
  | opens (i : Nat) (a : Account) (hnew : l.account i = none) (hfresh : a.uid ∉ l.accounts) :
      Move l .keeps (l.opens i a)
  | settles (i : Nat) (accepted : Bool) : Move l (.settles i accepted) (l.settle i accepted)
  | restarts : Move l .restarts l.restart

/-! ## No key is written twice -/

/-- The ledger has come about from `records` and the accounts `initial`. -/
structure Ledger.Sound (records : Uid → FBValue) (initial : List Uid) (l : Ledger) :
    Prop where
  once : WriteOnce records l.Opened l.database
  opened : ∀ uid, l.Opened uid → uid ∈ l.accounts ∧ uid ∉ initial
  initial : ∀ uid ∈ initial, uid ∈ l.accounts
  /-- No two taps were given the same account. -/
  single : ∀ i j a b, l.account i = some a → l.account j = some b → a.uid = b.uid → i = j

namespace Ledger

variable {records : Uid → FBValue} {initial : List Uid} {l l' : Ledger}
  {label : Ledger.Label}

theorem account_opens {i j : Nat} {a b : Account} (h : (l.opens i a).account j = some b) :
    (j = i ∧ b = a) ∨ l.account j = some b := by
  by_cases hj : j = i
  · subst hj
    left
    simpa [Ledger.opens, eq_comm] using h
  · right
    simpa [Ledger.opens, Function.update_of_ne hj] using h

theorem opened_opens {i : Nat} {a : Account} {uid : Uid} (h : (l.opens i a).Opened uid) :
    uid = a.uid ∨ l.Opened uid := by
  obtain ⟨j, b, hb, rfl⟩ := h
  rcases account_opens hb with ⟨_, rfl⟩ | hb
  · exact Or.inl rfl
  · exact Or.inr ⟨j, b, hb, rfl⟩

/-- Opening an account takes none away from the others. -/
theorem Opened.opens {uid : Uid} (h : l.Opened uid) {i : Nat} (hnew : l.account i = none)
    (a : Account) : (l.opens i a).Opened uid := by
  obtain ⟨j, b, hb, huid⟩ := h
  have hj : j ≠ i := by
    intro hj
    rw [hj, hnew] at hb
    cases hb
  refine ⟨j, b, ?_, huid⟩
  simpa [Ledger.opens, Function.update_of_ne hj] using hb

theorem Sound.opens (h : l.Sound records initial) {i : Nat} {a : Account}
    (hnew : l.account i = none) (hfresh : a.uid ∉ l.accounts) :
    (l.opens i a).Sound records initial := by
  have hunused : ¬ l.Opened a.uid := fun ho => hfresh (h.opened a.uid ho).1
  refine ⟨?_, ?_, ?_, ?_⟩
  · have ha : (l.opens i a).Opened a.uid := ⟨i, a, by simp [Ledger.opens], rfl⟩
    exact h.once.write hunused ha (fun _ ho => ho.opens hnew a) a.node
  · intro uid ho
    rcases opened_opens ho with rfl | ho
    · exact ⟨List.mem_cons_self, fun hinit => hfresh (h.initial _ hinit)⟩
    · obtain ⟨hmem, hinit⟩ := h.opened uid ho
      exact ⟨List.mem_cons_of_mem _ hmem, hinit⟩
  · intro uid huid
    exact List.mem_cons_of_mem _ (h.initial uid huid)
  · intro j k b c hb hc hbc
    rcases account_opens hb with ⟨hj, hba⟩ | hb
    · rcases account_opens hc with ⟨hk, _⟩ | hc
      · rw [hj, hk]
      · exact absurd ⟨k, c, hc, by rw [← hbc, hba]⟩ hunused
    · rcases account_opens hc with ⟨hk, hca⟩ | hc
      · exact absurd ⟨j, b, hb, by rw [hbc, hca]⟩ hunused
      · exact h.single j k b c hb hc hbc

theorem Sound.settle (h : l.Sound records initial) (i : Nat) (accepted : Bool) :
    (l.settle i accepted).Sound records initial := by
  refine ⟨?_, h.opened, h.initial, h.single⟩
  cases accepted with
  | true => exact h.once.acknowledge i
  | false => exact h.once.revert i

theorem Sound.move (h : l.Sound records initial) (hm : l.Move label l') :
    l'.Sound records initial := by
  cases hm with
  | stays => exact h
  | opens i a hnew hfresh => exact h.opens hnew hfresh
  | settles i accepted => exact h.settle i accepted
  | restarts => exact ⟨h.once.restart, h.opened, h.initial, h.single⟩

/-! ## A record stays until its own write is rejected or lost -/

/-- The client reads the account's record as it was saved. -/
def Stored (l : Ledger) (a : Account) : Prop := l.database.view a.uid = a.node

/-- Every account with `K` has its record. -/
def AllStored (K : Account → Prop) (l : Ledger) : Prop :=
  ∀ i a, l.account i = some a → K a → l.Stored a

/-- The pending write goes and the server does not have it. -/
def Drops (l : Ledger) : Label → Uid × FBValue → Prop
  | .settles i false, w => l.database.pending[i]? = some w
  | .restarts, w => w ∈ l.database.pending
  | _, _ => False

/-- The move drops no write of an account with `K`. -/
def Keeps (K : Account → Prop) (l : Ledger) (label : Label) : Prop :=
  ∀ w, l.Drops label w → ∀ j a, l.account j = some a → K a → w.1 ≠ a.uid

theorem Stored.opens (h : l.Sound records initial) {i j : Nat} {a b : Account}
    (hb : l.account j = some b) (hstored : l.Stored b) (hfresh : a.uid ∉ l.accounts) :
    (l.opens i a).Stored b := by
  have hne : a.uid ≠ b.uid := by
    intro heq
    exact hfresh (heq ▸ (h.opened b.uid ⟨j, b, hb, rfl⟩).1)
  unfold Stored Ledger.opens
  rw [Store.view_write, if_neg hne]
  exact hstored

theorem AllStored.move {K : Account → Prop} (h : l.Sound records initial)
    (hall : l.AllStored K) (hm : l.Move label l') (hkeeps : l.Keeps K label) :
    l'.AllStored K := by
  cases hm with
  | stays => exact hall
  | opens i a hnew hfresh =>
    intro j b hb hK
    rcases account_opens hb with ⟨_, rfl⟩ | hb
    · unfold Stored Ledger.opens
      rw [Store.view_write, if_pos rfl]
    · exact Stored.opens h hb (hall j b hb hK) hfresh
  | settles i accepted =>
    intro j b hb hK
    have hstored := hall j b hb hK
    cases accepted with
    | true =>
      have hview := h.once.view_acknowledge i b.uid
      exact hview.trans hstored
    | false =>
      have hview := l.database.view_revert_of_ne i fun w hw => hkeeps w hw j b hb hK
      exact hview.trans hstored
  | restarts =>
    intro j b hb hK
    have hview := Store.view_restart_of_ne fun w hw => hkeeps w hw j b hb hK
    exact hview.trans (hall j b hb hK)

end Ledger

/-! ## The app's ledger -/

/-- The account a call was given. -/
def Call.account (c : Call) : Option Account :=
  match c.status, c.request with
  | .created uid, .signUp _ _ user =>
      some { uid := uid, user := { user with id := uid.val },
             reported := c.fired.contains .authSuccess }
  | _, _ => none

def App.account (s : App) (i : Nat) : Option Account := s.calls[i]?.bind Call.account

def App.ledger (s : App) : Ledger := ⟨s.account, s.accounts, s.database⟩

/-- What an event does to the writes that are pending. -/
def Event.label {P : Platform} : Event P → Ledger.Label
  | .writeSettles i accepted => .settles i accepted
  | .launch _ => .restarts
  | _ => .keeps

theorem Event.label_of_byUser {P : Platform} {e : Event P} (h : e.byUser = true) :
    e.label = .keeps := by
  cases e with
  | writeSettles i accepted => cases h
  | launch signOut => cases h
  | _ => rfl

theorem Call.account_eq_none {c : Call} (h : ∀ uid, c.status ≠ .created uid) :
    c.account = none := by
  unfold Call.account
  split
  · rename_i uid email password user hstatus _
    exact absurd hstatus (h uid)
  · rfl

theorem Call.account_lose (c : Call) : c.lose.account = c.account := by
  unfold Call.lose
  split
  · rename_i h
    rw [Call.account_eq_none (by simp), Call.account_eq_none (by simp [h])]
  · rename_i h
    rw [Call.account_eq_none (by simp), Call.account_eq_none (by simp [h])]
  · rfl

namespace App

variable {s : App} {i : Nat} {call : Call}

theorem account_of_getElem? (h : s.calls[i]? = some call) : s.account i = call.account := by
  simp [App.account, h]

@[simp] theorem account_launch (s : App) (signOut : SignOut) :
    (s.launch signOut).account = s.account := by
  funext i
  simp only [App.account, App.launch, List.getElem?_map]
  cases s.calls[i]? with
  | none => rfl
  | some c => exact c.account_lose

@[simp] theorem account_start (s : App) (tap : Tap) : (s.start tap).account = s.account := by
  funext i
  simp only [App.account, App.start]
  rcases Nat.lt_trichotomy i s.calls.length with hi | hi | hi
  · rw [List.getElem?_append_left hi]
  · subst hi
    simp [Call.account]
  · have hlen : (s.calls ++ [({ tap with } : Call)]).length ≤ i := by
      simp
      omega
    rw [List.getElem?_eq_none hlen, List.getElem?_eq_none (Nat.le_of_lt hi)]

/-- The accounts when one call is changed. -/
theorem bind_account_modify {calls : List Call} (h : calls[i]? = some call) (f : Call → Call) :
    (fun j => (calls.modify i f)[j]?.bind Call.account)
      = Function.update (fun j => calls[j]?.bind Call.account) i (f call).account := by
  funext j
  by_cases hj : j = i
  · subst hj
    simp [h]
  · have hij : ¬ i = j := fun hij => hj hij.symm
    rw [Function.update_of_ne hj, List.getElem?_modify]
    simp [hij]

theorem account_setStatus (h : s.calls[i]? = some call) (status : Status) :
    (s.setStatus i status).account
      = Function.update s.account i ({ call with status := status } : Call).account :=
  bind_account_modify h _

/-- A completion changes nothing of a call but its history. -/
theorem account_complete (h : s.calls[i]? = some call) (result : Except AuthError Bool) :
    ∃ call' : Call, call'.toTap = call.toTap ∧ call'.status = call.status ∧
      (s.complete i result).account = Function.update s.account i call'.account := by
  refine ⟨{ call with
    reports := call.reports ++ [result]
    fired := call.fired ++ if s.owns call.owner then [authCompletion result] else [] },
    rfl, rfl, ?_⟩
  unfold App.complete
  rw [h]
  exact bind_account_modify h _

theorem account_setStatus_complete (h : s.calls[i]? = some call) (status : Status)
    (result : Except AuthError Bool) :
    ∃ call' : Call, call'.toTap = call.toTap ∧ call'.status = status ∧
      ((s.setStatus i status).complete i result).account
        = Function.update s.account i call'.account := by
  obtain ⟨call', htap, hstatus, haccount⟩ :=
    account_complete (getElem?_setStatus h status) result
  refine ⟨call', htap, hstatus, ?_⟩
  rw [haccount, account_setStatus h, Function.update_idem]

/-- A call without an account that gets none leaves the ledger alone. -/
theorem update_account_of_none (h : s.account i = none) {c : Call}
    (hc : ∀ uid, c.status ≠ .created uid) :
    Function.update s.account i c.account = s.account := by
  rw [Call.account_eq_none hc, ← h, Function.update_eq_self]

theorem account_setStatus_of_none (h : s.calls[i]? = some call) (hnone : s.account i = none)
    {status : Status} (hstatus : ∀ uid, status ≠ .created uid) :
    (s.setStatus i status).account = s.account := by
  rw [account_setStatus h]
  exact update_account_of_none hnone hstatus

theorem account_complete_of_none (h : s.calls[i]? = some call) (hnone : s.account i = none)
    {status : Status} (hstatus : ∀ uid, status ≠ .created uid)
    (result : Except AuthError Bool) :
    ((s.setStatus i status).complete i result).account = s.account := by
  obtain ⟨call', _, hstatus', haccount⟩ := account_setStatus_complete h status result
  rw [haccount]
  exact update_account_of_none hnone (hstatus' ▸ hstatus)

theorem Accepts.account {r : AuthResponse} (h : s.Accepts i call r) : s.account i = none := by
  rw [account_of_getElem? h.1]
  exact Call.account_eq_none (by simp [h.2.1])

theorem AwaitsRead.account (h : s.AwaitsRead i call) : s.account i = none := by
  obtain ⟨hcall, uid, hstatus⟩ := h
  rw [account_of_getElem? hcall]
  exact Call.account_eq_none (by simp [hstatus])

end App

/-- A step of the app that opens no account and leaves the database alone. -/
theorem Ledger.Move.of_eq {s s' : App} (haccount : s'.account = s.account)
    (haccounts : s'.accounts = s.accounts) (hdatabase : s'.database = s.database) :
    s.ledger.Move .keeps s'.ledger := by
  have hledger : s'.ledger = s.ledger := by
    unfold App.ledger
    rw [haccount, haccounts, hdatabase]
  rw [hledger]
  exact .stays

/-- Every step of the app is a move of its ledger. -/
theorem App.ledger_step {P : Platform} (s : App) (e : Event P) :
    s.ledger.Move e.label (s.step P e).ledger := by
  have heffect := s.effect e
  generalize s.step P e = s' at heffect ⊢
  cases heffect with
  | launched signOut =>
    have hledger : (s.launch signOut).ledger = s.ledger.restart := by
      unfold App.ledger
      rw [account_launch]
      rfl
    rw [hledger]
    exact .restarts
  | signInTapped screen => exact .of_eq (account_start s _) rfl rfl
  | signUpTapped screen n flow i signOut request =>
    exact .of_eq (account_start _ _) rfl rfl
  | unknownError i call code h =>
    exact .of_eq (account_setStatus_of_none h.1 h.account (by simp)) rfl rfl
  | knownError i call code authError h =>
    have hstatus : ∀ uid, Status.failed code ≠ .created uid := by simp
    have haccount := account_complete_of_none h.1 h.account hstatus (.error authError)
    exact .of_eq haccount (by simp [App.setStatus]) (by simp [App.setStatus])
  | signedIn i call email password uid h =>
    have hnone : (s.signedIn uid).account i = none := h.account
    exact .of_eq (account_setStatus_of_none (s := s.signedIn uid) h.1 hnone (by simp)) rfl rfl
  | signedUp i call email password user uid h hrequest hfresh =>
    have hcall : (s.signedUp uid user).calls[i]? = some call := h.1
    obtain ⟨call', htap, hstatus, haccount⟩ :=
      account_setStatus_complete hcall (.created uid) (.ok true)
    have hrequest' : call'.request = .signUp email password user := by
      rw [htap, hrequest]
    have hopened : call'.account = some
        { uid := uid, user := { user with id := uid.val },
          reported := call'.fired.contains .authSuccess } := by
      simp [Call.account, hstatus, hrequest']
    rw [hopened] at haccount
    have hmove := Ledger.Move.opens (l := s.ledger) i
      { uid := uid, user := { user with id := uid.val },
        reported := call'.fired.contains .authSuccess } h.account hfresh
    have hledger : (((s.signedUp uid user).setStatus i (.created uid)).complete i
        (.ok true)).ledger = s.ledger.opens i
          { uid := uid, user := { user with id := uid.val },
            reported := call'.fired.contains .authSuccess } := by
      unfold App.ledger
      rw [haccount, accounts_complete, database_complete]
      rfl
    rw [hledger]
    exact hmove
  | notLoaded i call r h =>
    exact .of_eq (account_setStatus_of_none h.1 h.account (by simp)) rfl rfl
  | loaded i call r user h =>
    have hnone : (s.stores user).account i = none := h.account
    have hstatus : ∀ uid, Status.loaded user ≠ .created uid := by simp
    have haccount :=
      account_complete_of_none (s := s.stores user) h.1 hnone hstatus (.ok true)
    exact .of_eq haccount (by simp [App.setStatus, App.stores])
      (by simp [App.setStatus, App.stores])
  | settled i accepted => exact .settles i accepted
  | ignored e huser =>
    rw [e.label_of_byUser huser]
    exact .stays
  | uncovered e huser screen screen' =>
    rw [e.label_of_byUser huser]
    exact .stays
  | _ => exact .stays

end BetweenUS.Application
