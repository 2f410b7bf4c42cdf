/-
BetweenUS.Application.RecordTheorems — the records of new accounts.

Two results, both over whole runs of the app and both read off the ledger.

* While every write gets to the server and is accepted, overlapping
  sign-ups do not get into each other's way (`noCrossTalk_throughout`). The
  `User` a late callback saves is the one its own tap captured, whatever
  the form was edited to since.
* ⚠️ `signUp` reports success in the Auth callback, right after issuing
  the write: `setValue` is called without a completion block. When the
  server rejects the write later, or the process ends before the write is
  settled, the account is there, it was reported, and it has no record
  (`dropped_write_leaves_no_record`). Reported accounts keep their records
  exactly as long as no such write is rejected or lost
  (`reportedRecorded_iff`).
-/
import BetweenUS.Application.Ledger
import BetweenUS.Application.RequestTheorems
import BetweenUS.Manager.AuthManagerTheorems
import BetweenUS.Manager.FBUserDatabaseTheorems

namespace BetweenUS.Application

open BetweenUS.Model BetweenUS.Manager BetweenUS.Rogin BetweenUS.Runs BetweenUS.Storage

variable {P : Platform}

/-! ## Taps and accounts -/

/-- A sign-up tap passes on its view model. -/
theorem TapsInv.request_of_signUp {s : App} (h : TapsInv s) {call : Call}
    (hcall : call ∈ s.calls) {vm : SignUpViewModel} (horigin : call.origin = .signUp vm) :
    call.request = .signUp vm.email vm.password vm.signUpUser := by
  have hfaithful := h.faithful hcall
  generalize call.toTap = tap at hfaithful horigin ⊢
  cases hfaithful with
  | signIn n vm' => cases horigin
  | signUp n vm' _ =>
    cases horigin
    rfl

theorem TapsInv.origin_of_signUp {s : App} (h : TapsInv s) {call : Call}
    (hcall : call ∈ s.calls) {email password : String} {user : User}
    (hrequest : call.request = .signUp email password user) :
    ∃ vm, call.origin = .signUp vm := by
  have hfaithful := h.faithful hcall
  generalize call.toTap = tap at hfaithful hrequest ⊢
  cases hfaithful with
  | signIn n vm => cases hrequest
  | signUp n vm _ => exact ⟨vm, rfl⟩

/-- The `User` of the account `uid`, from the fields of a view model. -/
def accountUser (vm : SignUpViewModel) (uid : Uid) : User :=
  { id := uid.val, email := vm.email, name := vm.name, nickName := vm.nickName,
    birthday := vm.birthDay, content := none }

theorem TapsInv.account_of_created {s : App} (h : TapsInv s) {i : Nat} {call : Call}
    (hcall : s.calls[i]? = some call) {vm : SignUpViewModel} {uid : Uid}
    (horigin : call.origin = .signUp vm) (hstatus : call.status = .created uid) :
    ∃ a, s.account i = some a ∧ a.uid = uid ∧ a.user = accountUser vm uid := by
  have hrequest := h.request_of_signUp (List.mem_of_getElem? hcall) horigin
  refine ⟨{ uid := uid, user := accountUser vm uid,
            reported := call.fired.contains .authSuccess }, ?_, rfl, rfl⟩
  rw [App.account_of_getElem? hcall]
  simp [Call.account, hstatus, hrequest, accountUser, SignUpViewModel.signUpUser]

theorem App.exists_call_of_account {s : App} {i : Nat} {a : Account}
    (h : s.account i = some a) :
    ∃ call, s.calls[i]? = some call ∧ call.status = .created a.uid ∧
      ∃ email password user, call.request = .signUp email password user := by
  unfold App.account at h
  obtain ⟨call, hcall, haccount⟩ := Option.bind_eq_some_iff.mp h
  unfold Call.account at haccount
  split at haccount
  · rename_i uid email password user hstatus hrequest
    cases haccount
    exact ⟨call, hcall, hstatus, email, password, user, hrequest⟩
  · cases haccount

/-- No tap has an account at the start. -/
theorem App.account_launched (persisted : Option Uid) (records : Uid → FBValue)
    (accounts : List Uid) (signOut : SignOut) (i : Nat) :
    (App.launched persisted records accounts signOut).account i = none := by
  unfold App.launched
  rw [account_launch]
  simp [App.account]

theorem Ledger.Sound.launched (persisted : Option Uid) (records : Uid → FBValue)
    (accounts : List Uid) (signOut : SignOut) :
    (App.launched persisted records accounts signOut).ledger.Sound records accounts := by
  have haccount := App.account_launched persisted records accounts signOut
  refine ⟨.init records _, ?_, fun _ h => h, ?_⟩
  · intro uid ho
    obtain ⟨i, a, ha, _⟩ := ho
    simp [App.ledger, haccount] at ha
  · intro i j a b ha
    simp [App.ledger, haccount] at ha

theorem Ledger.AllStored.launched (K : Account → Prop) (persisted : Option Uid)
    (records : Uid → FBValue) (accounts : List Uid) (signOut : SignOut) :
    (App.launched persisted records accounts signOut).ledger.AllStored K := by
  intro i a ha
  simp [App.ledger, App.account_launched] at ha

theorem Ledger.loadUser_of_stored {l : Ledger} {a : Account} (h : l.Stored a) :
    loadUser l.database a.uid.val = some { a.user with content := none } := by
  have hview : l.database.view a.uid = a.node := h
  simp only [loadUser, DbKey.child_val, Option.bind_some, hview]
  exact userOfSnapshot_newUser a.user

/-! ## Overlapping sign-ups -/

/-- Each account created by a tap has the record of THAT tap, no two taps
were given the same account, and no other record has changed. -/
structure NoCrossTalk (records : Uid → FBValue) (s : App) : Prop where
  record : ∀ call ∈ s.calls, ∀ vm uid,
    call.origin = .signUp vm → call.status = .created uid →
      (∃ user, call.request = .signUp vm.email vm.password user) ∧
      s.database.view uid = .dict
        [("id", .string uid.val), ("email", .string vm.email), ("name", .string vm.name),
         ("nickName", .string vm.nickName), ("birthday", .string vm.birthDay)] ∧
      loadUser s.database uid.val = some (accountUser vm uid)
  single : ∀ (i j : Nat) (call call' : Call) vm vm' uid,
    s.calls[i]? = some call → s.calls[j]? = some call' →
    call.origin = .signUp vm → call'.origin = .signUp vm' →
    call.status = .created uid → call'.status = .created uid → i = j
  noOther : ∀ k, s.database.view k ≠ records k →
    ∃ call ∈ s.calls, ∃ vm, call.origin = .signUp vm ∧ call.status = .created k

/-- The event rejects no write, and no process ends over a pending one. -/
def App.accepts (s : App) : Event P → Bool
  | .writeSettles _ accepted => accepted
  | .launch _ => s.database.pending.isEmpty
  | _ => true

theorem App.keeps_of_accepts {s : App} {e : Event P} (h : s.accepts e = true)
    (K : Account → Prop) : s.ledger.Keeps K e.label := by
  intro w hdrops
  cases e with
  | writeSettles i accepted =>
    obtain rfl : accepted = true := h
    cases hdrops
  | launch signOut =>
    have hnone : s.database.pending = [] := List.isEmpty_iff.mp h
    have hw : w ∈ s.database.pending := hdrops
    rw [hnone] at hw
    cases hw
  | _ => cases hdrops

/-- What a run that drops no write remembers. -/
structure RecordsInv (records : Uid → FBValue) (initial : List Uid) (s : App) : Prop where
  taps : TapsInv s
  sound : s.ledger.Sound records initial
  stored : s.ledger.AllStored fun _ => True

theorem RecordsInv.step {records : Uid → FBValue} {initial : List Uid} {s : App}
    (h : RecordsInv records initial s) {e : Event P} (he : s.accepts e = true) :
    RecordsInv records initial (s.step P e) where
  taps := h.taps.step e
  sound := h.sound.move (s.ledger_step e)
  stored := h.stored.move h.sound (s.ledger_step e) (App.keeps_of_accepts he _)

theorem RecordsInv.noCrossTalk {records : Uid → FBValue} {initial : List Uid} {s : App}
    (h : RecordsInv records initial s) : NoCrossTalk records s := by
  refine ⟨?_, ?_, ?_⟩
  · intro call hcall vm uid horigin hstatus
    obtain ⟨i, hi⟩ := List.mem_iff_getElem?.mp hcall
    obtain ⟨a, ha, rfl, huser⟩ := h.taps.account_of_created hi horigin hstatus
    have hstored := h.stored i a ha trivial
    refine ⟨⟨_, h.taps.request_of_signUp hcall horigin⟩, ?_, ?_⟩
    · have hview : s.database.view a.uid = a.node := hstored
      rw [hview, Account.node, huser]
      rfl
    · have hload := Ledger.loadUser_of_stored hstored
      rw [huser] at hload
      exact hload
  · intro i j call call' vm vm' uid hi hj horigin horigin' hstatus hstatus'
    obtain ⟨a, ha, hau, _⟩ := h.taps.account_of_created hi horigin hstatus
    obtain ⟨b, hb, hbu, _⟩ := h.taps.account_of_created hj horigin' hstatus'
    exact h.sound.single i j a b ha hb (hau.trans hbu.symm)
  · intro k hk
    have hopened : s.ledger.Opened k := by
      by_contra hunused
      exact hk (h.sound.once.view_untouched hunused)
    obtain ⟨i, a, ha, rfl⟩ := hopened
    obtain ⟨call, hcall, hstatus, email, password, user, hrequest⟩ :=
      App.exists_call_of_account ha
    have hmem := List.mem_of_getElem? hcall
    obtain ⟨vm, horigin⟩ := h.taps.origin_of_signUp hmem hrequest
    exact ⟨call, hmem, vm, horigin, hstatus⟩

/-- **Overlapping sign-ups do not get into each other's way** in any run
in which the server accepts what it settles and no process ends over a
pending write. -/
theorem noCrossTalk_throughout (P : Platform) (persisted : Option Uid)
    (records : Uid → FBValue) (accounts : List Uid) (signOut : SignOut)
    (es : List (Event P))
    (hes : EachStep (App.step P) (fun s e => s.accepts e = true)
      (App.launched persisted records accounts signOut) es) :
    Throughout (App.step P) (NoCrossTalk records)
      (App.launched persisted records accounts signOut) es := by
  refine throughout_of_eachStep (Q := RecordsInv records accounts)
    (fun _ h => h.noCrossTalk) (fun _ _ h he => h.step he) ?_ hes
  exact ⟨.launched persisted records accounts signOut,
    .launched persisted records accounts signOut,
    .launched _ persisted records accounts signOut⟩

/-- A second tap after the name was changed, the two answers crossing, and
a new process once both writes are settled. -/
def crossingSignUps : List (Event .gregorian) :=
  openSignUp ++
    [.signUpInput .signUp .succeeds, .signUpInput (.name "other") .succeeds,
     .signUpInput .signUp .succeeds, .authAnswers 1 (.result uid₂),
     .authAnswers 0 (.result uid₁), .writeSettles 0 true, .writeSettles 0 true,
     .launch .succeeds]

theorem noCrossTalk_crossing :
    (loadUser (run (App.step .gregorian) freshDevice crossingSignUps).database
        "uid1").map (·.name) = some "name" ∧
      (loadUser (run (App.step .gregorian) freshDevice crossingSignUps).database
        "uid2").map (·.name) = some "other" ∧
      Throughout (App.step .gregorian) (NoCrossTalk fun _ => .null) freshDevice
        crossingSignUps := by
  refine ⟨by decide, by decide, ?_⟩
  exact noCrossTalk_throughout .gregorian none (fun _ => .null) [] .succeeds
    crossingSignUps (by decide)

/-! ## Reported sign-ups -/

/-- The record of `uid` decodes, and a sign-in to which Auth answers with
`uid` succeeds on it. -/
def SignsIn (db : Database) (uid : Uid) : Prop :=
  (∃ user, loadUser db uid.val = some user) ∧
    ∀ email password, completions ((Request.signIn email password).run
      ⟨.result uid, fun k => .value (db.view k)⟩) = [.ok true]

theorem loadUser_uid (db : Database) (uid : Uid) :
    loadUser db uid.val = userOfSnapshot (db.view uid) := by
  simp [loadUser]

theorem signsIn_of_loadUser {db : Database} {uid : Uid} {user : User}
    (h : loadUser db uid.val = some user) : SignsIn db uid := by
  refine ⟨⟨user, h⟩, fun email password => ?_⟩
  rw [loadUser_uid] at h
  rw [signIn_run_result]
  have hread : completions (readCallback (.value (db.view uid))) = [.ok true] := by
    rw [completions_readCallback]
    simp [ReadResponse.user?, h]
  simpa [completions] using hread

/-- Every sign-up that was reported as a success has its record. -/
def ReportedRecorded (s : App) : Prop :=
  ∀ call ∈ s.calls, ∀ a, call.account = some a → a.reported = true →
    SignsIn s.database a.uid

/-- The event neither rejects the record of a reported account nor ends
the process while that record is a pending write. -/
def KeepsReported (s : App) : Event P → Prop
  | .writeSettles i false => ∀ w, s.database.pending[i]? = some w →
      ∀ call ∈ s.calls, ∀ a, call.account = some a → a.reported = true → w.1 ≠ a.uid
  | .launch _ => ∀ w ∈ s.database.pending,
      ∀ call ∈ s.calls, ∀ a, call.account = some a → a.reported = true → w.1 ≠ a.uid
  | _ => True

theorem App.account_iff_mem {s : App} {a : Account} :
    (∃ i, s.account i = some a) ↔ ∃ call ∈ s.calls, call.account = some a := by
  constructor
  · intro h
    obtain ⟨i, hi⟩ := h
    obtain ⟨call, hcall, haccount⟩ := Option.bind_eq_some_iff.mp hi
    exact ⟨call, List.mem_of_getElem? hcall, haccount⟩
  · intro h
    obtain ⟨call, hmem, haccount⟩ := h
    obtain ⟨i, hi⟩ := List.mem_iff_getElem?.mp hmem
    exact ⟨i, (App.account_of_getElem? hi).trans haccount⟩

theorem KeepsReported.keeps {s : App} {e : Event P} (h : KeepsReported s e) :
    s.ledger.Keeps (fun a => a.reported = true) e.label := by
  intro w hdrops j a ha hreported
  obtain ⟨call, hmem, haccount⟩ := App.account_iff_mem.mp ⟨j, ha⟩
  cases e with
  | writeSettles i accepted =>
    cases accepted with
    | true => cases hdrops
    | false => exact h w hdrops call hmem a haccount hreported
  | launch signOut => exact h w hdrops call hmem a haccount hreported
  | _ => cases hdrops

/-- An account that a call has been given is none of the first ones, so
without its write it reads as an id that was never issued. -/
theorem not_signsIn_of_view {records : Uid → FBValue} {initial : List Uid} {s : App}
    (hsound : s.ledger.Sound records initial)
    (hnew : ∀ uid, uid ∉ initial → userOfSnapshot (records uid) = none) {call : Call}
    (hmem : call ∈ s.calls) {a : Account} (haccount : call.account = some a) {db : Database}
    (hview : db.view a.uid = records a.uid) : ¬ SignsIn db a.uid := by
  rintro ⟨⟨user, hload⟩, -⟩
  obtain ⟨i, hi⟩ := App.account_iff_mem.mpr ⟨call, hmem, haccount⟩
  have hinitial := (hsound.opened a.uid ⟨i, a, hi, rfl⟩).2
  rw [loadUser_uid, hview, hnew a.uid hinitial] at hload
  cases hload

/-- A write that is dropped takes the record back to what it was before
the account existed. -/
theorem keepsReported_of_recorded {records : Uid → FBValue} {initial : List Uid} {s : App}
    (hsound : s.ledger.Sound records initial)
    (hnew : ∀ uid, uid ∉ initial → userOfSnapshot (records uid) = none) {e : Event P}
    (h : ReportedRecorded (s.step P e)) : KeepsReported s e := by
  cases e with
  | writeSettles i accepted =>
    cases accepted with
    | true => trivial
    | false =>
      intro w hw call hmem a haccount hreported hkey
      have hview := hsound.once.view_revert_self hw
      rw [hkey] at hview
      -- the step leaves the calls alone, so the account is still a reported one
      exact not_signsIn_of_view hsound hnew hmem haccount hview (h call hmem a haccount hreported)
  | launch signOut =>
    intro w hw call hmem a haccount hreported hkey
    have hview := hsound.once.view_restart_of_mem hw
    rw [hkey] at hview
    have hlose : call.lose ∈ (s.step P (.launch signOut)).calls := List.mem_map_of_mem hmem
    exact not_signsIn_of_view hsound hnew hmem haccount hview
      (h call.lose hlose a (call.account_lose.trans haccount) hreported)
  | _ => trivial

/-- What such a run remembers: the records of the reported accounts. -/
def ReportedInv (records : Uid → FBValue) (initial : List Uid) (s : App) : Prop :=
  s.ledger.Sound records initial ∧ s.ledger.AllStored fun a => a.reported = true

theorem ReportedInv.reportedRecorded {records : Uid → FBValue} {initial : List Uid} {s : App}
    (h : ReportedInv records initial s) : ReportedRecorded s := by
  intro call hmem a haccount hreported
  obtain ⟨i, hi⟩ := App.account_iff_mem.mpr ⟨call, hmem, haccount⟩
  exact signsIn_of_loadUser (Ledger.loadUser_of_stored (h.2 i a hi hreported))

theorem ReportedInv.step {records : Uid → FBValue} {initial : List Uid} {s : App}
    (h : ReportedInv records initial s) {e : Event P} (hkeeps : KeepsReported s e) :
    ReportedInv records initial (s.step P e) := by
  have hmove := s.ledger_step e
  exact ⟨h.1.move hmove, h.2.move h.1 hmove hkeeps.keeps⟩

/-- **Reported sign-ups have their records throughout a run if** no step of
the run rejects or loses the record of a reported account, and only if,
where ids that are no accounts yet have no record that decodes. -/
theorem reportedRecorded_iff (P : Platform) (persisted : Option Uid)
    (records : Uid → FBValue) (accounts : List Uid) (signOut : SignOut)
    (es : List (Event P)) :
    (EachStep (App.step P) KeepsReported
        (App.launched persisted records accounts signOut) es →
      Throughout (App.step P) ReportedRecorded
        (App.launched persisted records accounts signOut) es) ∧
    ((∀ uid, uid ∉ accounts → userOfSnapshot (records uid) = none) →
      Throughout (App.step P) ReportedRecorded
        (App.launched persisted records accounts signOut) es →
      EachStep (App.step P) KeepsReported
        (App.launched persisted records accounts signOut) es) := by
  have hstart : ReportedInv records accounts
      (App.launched persisted records accounts signOut) :=
    ⟨.launched persisted records accounts signOut,
      .launched _ persisted records accounts signOut⟩
  have hkeep : ∀ s (e : Event P), ReportedInv records accounts s → KeepsReported s e →
      ReportedInv records accounts (s.step P e) := fun _ _ h hkeeps => h.step hkeeps
  constructor
  · intro hes
    exact throughout_of_eachStep (fun _ h => h.reportedRecorded) hkeep hstart hes
  · intro hnew hes
    refine eachStep_of_throughout hkeep ?_ hstart hes
    intro s e h hrecorded
    exact keepsReported_of_recorded h.1 hnew hrecorded

theorem reportedRecorded_after_acknowledge :
    Throughout (App.step .gregorian) ReportedRecorded freshDevice
      (openSignUp ++ [.signUpInput .signUp .succeeds, .authAnswers 0 (.result uid₁),
        .writeSettles 0 true, .launch .succeeds]) := by
  refine (reportedRecorded_iff .gregorian none (fun _ => .null) [] .succeeds _).1 ?_
  simp only [openSignUp, List.cons_append, List.nil_append, EachStep, KeepsReported, and_true,
    true_and]
  -- the new process finds nothing pending
  intro w hw
  exact absurd hw List.not_mem_nil

/-- The sign-up is reported as a success and its record then lost by
`event`. -/
def droppedBy (event : Event .gregorian) : App :=
  run (App.step .gregorian) freshDevice
    (openSignUp ++ [.signUpInput .signUp .succeeds, .authAnswers 0 (.result uid₁), event])

theorem not_reportedRecorded {s : App} (uid : Uid) (hload : loadUser s.database uid.val = none)
    (hcall : s.calls.any (fun call =>
      call.account.any fun a => a.uid = uid ∧ a.reported = true) = true) :
    ¬ ReportedRecorded s := by
  intro h
  obtain ⟨call, hmem, haccount⟩ := List.any_eq_true.mp hcall
  obtain ⟨a, ha, hreported⟩ := (Option.any_eq_true _ _).mp haccount
  simp only [decide_eq_true_eq] at hreported
  obtain ⟨⟨user, huser⟩, _⟩ := h call hmem a ha hreported.2
  rw [hreported.1] at huser
  exact Option.some_ne_none user (huser.symm.trans hload)

/-- The sign-up is reported as a success and its write is rejected, or the
process ends before the write is settled: the account has no record. -/
theorem dropped_write_leaves_no_record :
    ¬ ReportedRecorded (droppedBy (.writeSettles 0 false)) ∧
      ¬ ReportedRecorded (droppedBy (.launch .succeeds)) := by
  constructor
  · exact not_reportedRecorded uid₁ (by decide) (by decide)
  · exact not_reportedRecorded uid₁ (by decide) (by decide)

end BetweenUS.Application
