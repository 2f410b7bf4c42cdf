/-
BetweenUS.Application.SessionTheorems — whose session the main screen shows.

Three pieces of state ought to agree while `MainTabbarViewController` is
on screen: that it is on screen, Firebase's `currentUser`, and
`UserInformation.shared.user`. They are written by different callbacks,
and no code compares them.

`mainAgrees_iff` says which steps keep them together, and exactly which:

* the scene connects while nobody is logged in, or the loaded user is the
  one who is. ⚠️ `isLogin()` looks at `currentUser` alone, so a session
  that Firebase restored (`logout()` ignores a `signOut` that throws) or
  that a half-failed sign-in left behind shows the main screen with no
  user loaded;
* while the main screen is up, Auth answers for the current account only.
  ⚠️ Nothing cancels or sequences overlapping attempts;
* a record that arrives while the main screen is up, or that opens it, is
  the one of the current account. ⚠️ `signIn` stores whatever record its own
  read returns, whoever is logged in by then.
-/
import BetweenUS.Application.RequestTheorems

namespace BetweenUS.Application

open BetweenUS.Model BetweenUS.Manager BetweenUS.Rogin BetweenUS.Runs

variable {P : Platform}

/-! ## What opens the main screen -/

/-- A success of the view model `id` presents the main screen: its sign-in
page is the root and presents nothing. -/
def Root.opensMain : VmId → Root → Bool
  | .signIn n, .signIn screen =>
      screen.n == n &&
        match screen.presented with
        | .nothing => true
        | _ => false
  | _, _ => false

def App.opensMain (s : App) (id : VmId) : Bool := s.window.any (Root.opensMain id)

@[simp] theorem isMain_presentedFlow (n : Nat) (o : Option SignUpFlow) :
    (presentedFlow n o).isMain = false := by
  cases o <;> rfl

/-- A sign-up view model moves its own screen only. -/
theorem Root.showsMain_deliver_signUp (e : SubjectEvent) (n : Nat) (root : Root) :
    (root.deliver e (.signUp n)).showsMain = root.showsMain := by
  cases root with
  | mainTabbar => rfl
  | signIn screen =>
    obtain ⟨n', form, presented⟩ := screen
    cases presented with
    | signUp n'' flow =>
      simp only [Root.deliver]
      split
      · simp only [Root.showsMain, isMain_presentedFlow]
        rfl
      · rfl
    | _ => rfl

theorem Root.showsMain_deliver_success (id : VmId) (root : Root) :
    (root.deliver .authSuccess id).showsMain = (root.showsMain || root.opensMain id) := by
  cases id with
  | signUp n =>
    rw [Root.showsMain_deliver_signUp]
    cases root <;> simp [Root.opensMain]
  | signIn n =>
    cases root with
    | mainTabbar => rfl
    | signIn screen =>
      obtain ⟨n', form, presented⟩ := screen
      simp only [Root.deliver]
      by_cases hn : n' = n
      · rw [if_pos hn]
        cases presented <;>
          simp [SignInScreen.hear, Root.showsMain, Root.opensMain, Presented.isMain, hn]
      · rw [if_neg hn]
        simp [Root.showsMain, Root.opensMain, hn]

/-- A failure never brings the main screen up, or down. -/
theorem Root.showsMain_deliver_failure (message : String) (id : VmId) (root : Root) :
    (root.deliver (.authFailure message) id).showsMain = root.showsMain := by
  cases id with
  | signUp n => exact Root.showsMain_deliver_signUp _ n root
  | signIn n =>
    cases root with
    | mainTabbar => rfl
    | signIn screen =>
      obtain ⟨n', form, presented⟩ := screen
      simp only [Root.deliver]
      split
      · cases presented <;> rfl
      · rfl

theorem App.showsMain_complete_success {s : App} {i : Nat} {call : Call}
    (h : s.calls[i]? = some call) (status : Status) (b : Bool) :
    ((s.setStatus i status).complete i (.ok b)).showsMain
      = (s.showsMain || s.opensMain call.owner) := by
  unfold App.complete
  rw [App.getElem?_setStatus h]
  simp only [App.showsMain, App.opensMain, App.setStatus]
  cases s.window with
  | none => rfl
  | some root => exact Root.showsMain_deliver_success call.owner root

theorem App.showsMain_complete_failure (s : App) (i : Nat) (e : AuthError) :
    (s.complete i (.error e)).showsMain = s.showsMain := by
  obtain ⟨type, message⟩ := e
  unfold App.complete
  split
  · rfl
  · rename_i call hcall
    simp only [App.showsMain]
    cases s.window with
    | none => rfl
    | some root => exact Root.showsMain_deliver_failure message call.owner root

/-- A sign-up belongs to a sign-up view model, and those do not present
the main screen. -/
theorem TapsInv.opensMain_of_signUp {s : App} (h : TapsInv s) {i : Nat} {call : Call}
    (hcall : s.calls[i]? = some call) {email password : String} {user : User}
    (hrequest : call.request = .signUp email password user) :
    s.opensMain call.owner = false := by
  have hfaithful := h.faithful (List.mem_of_getElem? hcall)
  generalize call.toTap = tap at hfaithful hrequest ⊢
  cases hfaithful with
  | signIn n vm => cases hrequest
  | signUp n vm _ =>
    unfold App.opensMain
    cases s.window with
    | none => rfl
    | some root => cases root <;> rfl

/-! ## Agreement -/

/-- The loaded user is the one Firebase has logged in. -/
def Agrees (session : Session) : Prop :=
  ∃ uid user, session.currentUser = some uid ∧ session.user = some user ∧ user.id = uid.val

theorem agrees_iff (session : Session) :
    Agrees session ↔ session.currentUser.isSome = true ∧
      session.user.map (·.id) = session.currentUser.map (·.val) := by
  obtain ⟨currentUser, user⟩ := session
  unfold Agrees
  cases currentUser <;> cases user <;> simp

instance (session : Session) : Decidable (Agrees session) :=
  decidable_of_iff' _ (agrees_iff session)

/-- The main screen is shown only over a session that agrees. -/
def MainAgrees (s : App) : Prop := s.showsMain = true → Agrees s.session

instance (s : App) : Decidable (MainAgrees s) :=
  inferInstanceAs (Decidable (s.showsMain = true → Agrees s.session))

/-- What a step must bring along. -/
def KeepsAgreement (s : App) : Event P → Prop
  | .sceneConnects => ∀ uid, s.session.currentUser = some uid →
      ∃ user, s.session.user = some user ∧ user.id = uid.val
  | .authAnswers i (.result uid) => (∃ call, s.Accepts i call (.result uid)) →
      s.showsMain = true → s.session.currentUser = some uid
  | .readAnswers i r => ∀ call user, s.AwaitsRead i call → r.user? = some user →
      s.showsMain = true ∨ s.opensMain call.owner = true →
        ∃ uid, s.session.currentUser = some uid ∧ user.id = uid.val
  | _ => True

/-- A session that agrees does so for one account only. -/
theorem Agrees.currentUser_of_agrees {session : Session} (h : Agrees session) {uid : Uid}
    (h' : Agrees { session with currentUser := some uid }) :
    session.currentUser = some uid := by
  obtain ⟨uid₀, user, hcurrent, huser, hid⟩ := h
  obtain ⟨uid', user', hcurrent', huser', hid'⟩ := h'
  have hsame : user = user' := Option.some.inj (huser.symm.trans huser')
  have huid : uid = uid' := Option.some.inj hcurrent'
  have hkey : uid₀ = uid := by
    apply DbKey.ext
    rw [← hid, hsame, hid', huid]
  rw [hcurrent, hkey]

theorem Agrees.of_currentUser {session : Session} (h : Agrees session) {uid : Uid}
    (huid : session.currentUser = some uid) :
    Agrees { session with currentUser := some uid } := by
  rw [← huid]
  exact h

theorem Session.isLogin_iff (session : Session) :
    session.isLogin = true ↔ ∃ uid, session.currentUser = some uid := by
  cases h : session.currentUser <;> simp [Session.isLogin, h]

theorem MainAgrees.step {s : App} (h : MainAgrees s) (htaps : TapsInv s) {e : Event P}
    (hkeeps : KeepsAgreement s e) : MainAgrees (s.step P e) := by
  have heffect := s.effect e
  generalize s.step P e = s' at heffect ⊢
  cases heffect with
  | launched signOut =>
    intro hmain
    cases hmain
  | rootMain hlogin =>
    intro _
    obtain ⟨uid, hcurrent⟩ := (Session.isLogin_iff s.session).mp hlogin
    obtain ⟨user, huser, hid⟩ := hkeeps uid hcurrent
    exact ⟨uid, user, hcurrent, huser, hid⟩
  | rootSignIn hlogin =>
    intro hmain
    cases hmain
  | uncovered e huser screen screen' hwindow hnothing =>
    intro hmain
    simp [App.showsMain, App.setScreen, Root.showsMain, hnothing, Presented.isMain] at hmain
  | signUpOpened screen hwindow =>
    intro hmain
    cases hmain
  | flowStepped screen n flow i signOut hwindow hflow =>
    intro hmain
    simp [App.showsMain, App.setScreen, Root.showsMain] at hmain
  | signUpTapped screen n flow i signOut request hwindow hflow hrequest =>
    intro hmain
    simp [App.showsMain, App.start, App.setScreen, Root.showsMain] at hmain
  | knownError i call code authError hcall =>
    intro hmain
    rw [App.showsMain_complete_failure] at hmain
    rw [App.session_complete]
    exact h hmain
  | signedIn i call email password uid hcall hrequest =>
    intro hmain
    exact (h hmain).of_currentUser (hkeeps ⟨call, hcall⟩ hmain)
  | signedUp i call email password user uid hcall hrequest hfresh =>
    intro hmain
    have hcall' : (s.signedUp uid user).calls[i]? = some call := hcall.1
    rw [App.showsMain_complete_success hcall', Bool.or_eq_true] at hmain
    rw [App.session_complete]
    rcases hmain with hmain | hmain
    · exact (h hmain).of_currentUser (hkeeps ⟨call, hcall⟩ hmain)
    · have hclosed := htaps.opensMain_of_signUp hcall.1 hrequest
      exact absurd (hclosed.symm.trans hmain) Bool.false_ne_true
  | loaded i call r user hcall hr =>
    intro hmain
    have hcall' : (s.stores user).calls[i]? = some call := hcall.1
    rw [App.showsMain_complete_success hcall', Bool.or_eq_true] at hmain
    obtain ⟨uid, hcurrent, hid⟩ := hkeeps call user hcall hr hmain
    rw [App.session_complete]
    exact ⟨uid, user, hcurrent, rfl, hid⟩
  | _ => exact h

/-- A step that keeps the agreement had what it takes. -/
theorem keepsAgreement_of_mainAgrees {s : App} (h : MainAgrees s) {e : Event P}
    (h' : MainAgrees (s.step P e)) : KeepsAgreement s e := by
  have heffect := s.effect e
  generalize s.step P e = s' at heffect h'
  cases heffect with
  | rootMain hlogin =>
    intro uid hcurrent
    obtain ⟨uid', user, hcurrent', huser, hid⟩ := h' rfl
    obtain rfl : uid = uid' := Option.some.inj (hcurrent.symm.trans hcurrent')
    exact ⟨user, huser, hid⟩
  | rootSignIn hlogin =>
    intro uid hcurrent
    have hlogin' := (Session.isLogin_iff s.session).mpr ⟨uid, hcurrent⟩
    exact absurd (hlogin.symm.trans hlogin') Bool.false_ne_true
  | authIgnored i r hno =>
    cases r with
    | error code => trivial
    | result uid =>
      intro hyes
      obtain ⟨call, hcall⟩ := hyes
      exact absurd hcall (hno call)
  | signedIn i call email password uid hcall hrequest =>
    intro _ hmain
    exact (h hmain).currentUser_of_agrees (h' hmain)
  | signedUp i call email password user uid hcall hrequest hfresh =>
    intro _ hmain
    have hcall' : (s.signedUp uid user).calls[i]? = some call := hcall.1
    have hmain' : (s.signedUp uid user).showsMain = true := hmain
    have hafter := App.showsMain_complete_success hcall' (.created uid) true
    rw [hmain', Bool.true_or] at hafter
    have hagrees := h' hafter
    rw [App.session_complete] at hagrees
    exact (h hmain).currentUser_of_agrees hagrees
  | readIgnored i r hno =>
    intro call user hcall
    exact absurd hcall (hno call)
  | notLoaded i call r hcall hr =>
    intro call' user _ huser
    rw [hr] at huser
    cases huser
  | loaded i call r user hcall hr =>
    intro call₁ user₁ hcall₁ huser₁ hmain
    obtain rfl : call = call₁ := Option.some.inj (hcall.1.symm.trans hcall₁.1)
    obtain rfl : user = user₁ := Option.some.inj (hr.symm.trans huser₁)
    have hcall' : (s.stores user).calls[i]? = some call := hcall.1
    have hafter := App.showsMain_complete_success hcall' (.loaded user) true
    have hmain' : ((s.stores user).showsMain || (s.stores user).opensMain call.owner) = true :=
      (Bool.or_eq_true _ _).mpr hmain
    obtain ⟨uid, user', hcurrent, huser', hid⟩ := h' (hafter.trans hmain')
    rw [App.session_complete] at hcurrent huser'
    obtain rfl : user = user' := Option.some.inj huser'
    exact ⟨uid, hcurrent, hid⟩
  | ignored e huser =>
    cases e with
    | sceneConnects | authAnswers i r | readAnswers i r => cases huser
    | _ => trivial
  | uncovered e huser screen screen' =>
    cases e with
    | sceneConnects | authAnswers i r | readAnswers i r => cases huser
    | _ => trivial
  | _ => trivial

/-- **The main screen, the current user and the loaded user agree
throughout a run exactly when** every step of the run brings along what
`KeepsAgreement` asks of it. -/
theorem mainAgrees_iff (P : Platform) (persisted : Option Uid) (records : Uid → FBValue)
    (accounts : List Uid) (signOut : SignOut) (es : List (Event P)) :
    Throughout (App.step P) MainAgrees
        (App.launched persisted records accounts signOut) es ↔
      EachStep (App.step P) KeepsAgreement
        (App.launched persisted records accounts signOut) es := by
  refine throughout_iff_eachStep (Q := fun s => MainAgrees s ∧ TapsInv s)
    (fun _ h => h.1) ?_ ?_ ?_ es
  · intro s e h hkeeps
    exact ⟨h.1.step h.2 hkeeps, h.2.step e⟩
  · intro s e h h'
    exact keepsAgreement_of_mainAgrees h.1 h'
  · refine ⟨?_, .launched persisted records accounts signOut⟩
    intro hmain
    cases hmain

/-- Two sign-ins to different accounts; the first one's record arrives when
Auth has already answered the second. -/
def overlappingSignIns : List (Event .gregorian) :=
  [.sceneConnects, .emailText (some "a@b.co"), .passwordText (some "abcdef1"), .tapSignIn,
   .emailText (some "c@d.co"), .tapSignIn, .authAnswers 0 (.result uid₁),
   .authAnswers 1 (.result uid₂),
   .readAnswers 0 (.value (.dict
     [("id", .string "uid1"), ("email", .string "a@b.co"), ("name", .string "name"),
      ("nickName", .string "nick"), ("birthday", .string "2000년 01월 02일")]))]

/-- The main screen with no user loaded, after a launch whose sign-out
threw, and with the user of another account, after overlapping sign-ins. -/
theorem mainTabbar_over_wrong_session :
    ¬ MainAgrees (run (App.step .gregorian)
        (App.launched (some uid₁) (fun _ => .null) [uid₁] .throws) [.sceneConnects]) ∧
      ¬ MainAgrees (run (App.step .gregorian)
        (App.launched none (fun _ => .null) [uid₁, uid₂] .succeeds) overlappingSignIns) := by
  constructor
  · decide
  · decide

end BetweenUS.Application
