/-
BetweenUS.Application.StepTheorems — everything a step of the app can do.

`Effect P s e s'` lists, case by case and with its guards, what the event
`e` makes of the state `s`. `App.effect` says that the list is complete:
every step is one of its cases. The invariants of the app are proved by
going through this list; none of them unfolds `App.step` again.

The callbacks are run to their end here. An answer of Auth has five
outcomes (ignored, an error `branchError` does not know, one it knows, a
sign-in result, a sign-up result), the end of a read has three.
-/
import BetweenUS.Application.App

namespace BetweenUS.Application

open BetweenUS.Model BetweenUS.Manager BetweenUS.Rogin BetweenUS.Storage

variable {P : Platform} {s : App}

namespace App

/-! ## What a callback leaves alone -/

@[simp] theorem session_complete (s : App) (i : Nat) (result : Except AuthError Bool) :
    (s.complete i result).session = s.session := by
  unfold complete
  split <;> rfl

@[simp] theorem database_complete (s : App) (i : Nat) (result : Except AuthError Bool) :
    (s.complete i result).database = s.database := by
  unfold complete
  split <;> rfl

@[simp] theorem accounts_complete (s : App) (i : Nat) (result : Except AuthError Bool) :
    (s.complete i result).accounts = s.accounts := by
  unfold complete
  split <;> rfl

theorem getElem?_setStatus {s : App} {i : Nat} {call : Call} (h : s.calls[i]? = some call)
    (status : Status) :
    (s.setStatus i status).calls[i]? = some { call with status := status } := by
  simp [App.setStatus, h]

/-! ## When an answer is taken -/

/-- Call `i` waits for Auth, and `r` is an answer Auth can give it. -/
def Accepts (s : App) (i : Nat) (call : Call) (r : AuthResponse) : Prop :=
  s.calls[i]? = some call ∧ call.status = .awaitingAuth ∧ s.possible call.request r = true

/-- Call `i` waits for the read of a record. -/
def AwaitsRead (s : App) (i : Nat) (call : Call) : Prop :=
  s.calls[i]? = some call ∧ ∃ uid, call.status = .awaitingRead uid

end App

/-- The events the user makes. -/
def Event.byUser : Event P → Bool
  | .emailText _ | .passwordText _ | .tapSignIn | .tapSignUp | .dismissAlert
  | .signUpInput _ _ => true
  | _ => false

/-! ## The list of effects -/

/-- Auth makes the account the current one. -/
def App.signedIn (s : App) (uid : Uid) : App :=
  { s with session := { s.session with currentUser := some uid } }

/-- `UserInformation.shared` takes the user. -/
def App.stores (s : App) (user : User) : App :=
  { s with session := { s.session with user := some user } }

/-- The account of a new user: Auth registers it and makes it the current
one, and the callback saves its record. -/
def App.signedUp (s : App) (uid : Uid) (user : User) : App :=
  { s with
      accounts := uid :: s.accounts
      session := { s.session with currentUser := some uid }
      database := s.database.write uid
        (setValueNode (newUserEntries { user with id := uid.val })) }

/-- What an event can do. -/
inductive Effect (P : Platform) (s : App) : Event P → App → Prop where
  /-- The control the user touches is not on screen, or not enabled. -/
  | ignored (e : Event P) (huser : e.byUser = true) : Effect P s e s
  | launched (signOut : SignOut) : Effect P s (.launch signOut) (s.launch signOut)
  | rootMain (h : s.session.isLogin = true) :
      Effect P s .sceneConnects { s with window := some .mainTabbar }
  | rootSignIn (h : s.session.isLogin = false) :
      Effect P s .sceneConnects
        { s with
            window := some (.signIn
              { n := s.nextId, form := SignInForm.viewDidLoad, presented := .nothing })
            nextId := s.nextId + 1 }
  /-- A field of the uncovered sign-in page changes, or its alert goes. -/
  | uncovered (e : Event P) (huser : e.byUser = true) (screen screen' : SignInScreen)
      (hwindow : s.window = some (.signIn screen)) (h : screen'.presented = .nothing) :
      Effect P s e (s.setScreen screen')
  | signInTapped (screen : SignInScreen) (hwindow : s.window = some (.signIn screen)) :
      Effect P s .tapSignIn
        (s.start ⟨.signIn screen.n, .signIn screen.form.viewModel, screen.form.request⟩)
  | signUpOpened (screen : SignInScreen) (hwindow : s.window = some (.signIn screen)) :
      Effect P s .tapSignUp
        { s.setScreen { screen with presented := .signUp s.nextId (SignUpFlow.start P) } with
            nextId := s.nextId + 1 }
  | flowStepped (screen : SignInScreen) (n : Nat) (flow : SignUpFlow) (i : SignUpInput P)
      (signOut : SignOut) (hwindow : s.window = some (.signIn screen))
      (hflow : screen.presented = .signUp n flow) :
      Effect P s (.signUpInput i signOut)
        (s.setScreen { screen with presented := presentedFlow n (flow.step P i) })
  | signUpTapped (screen : SignInScreen) (n : Nat) (flow : SignUpFlow) (i : SignUpInput P)
      (signOut : SignOut) (request : Request) (hwindow : s.window = some (.signIn screen))
      (hflow : screen.presented = .signUp n flow) (hrequest : flow.request i = some request) :
      Effect P s (.signUpInput i signOut)
        ({ s.setScreen { screen with presented := presentedFlow n (flow.step P i) } with
            session := s.session.logout signOut }.start
          ⟨.signUp n, .signUp flow.viewModel, request⟩)
  | authIgnored (i : Nat) (r : AuthResponse) (h : ∀ call, ¬ s.Accepts i call r) :
      Effect P s (.authAnswers i r) s
  | unknownError (i : Nat) (call : Call) (code : Int) (h : s.Accepts i call (.error code))
      (hcode : branchError code = none) :
      Effect P s (.authAnswers i (.error code)) (s.setStatus i (.failed code))
  | knownError (i : Nat) (call : Call) (code : Int) (authError : AuthError)
      (h : s.Accepts i call (.error code)) (hcode : branchError code = some authError) :
      Effect P s (.authAnswers i (.error code))
        ((s.setStatus i (.failed code)).complete i (.error authError))
  | signedIn (i : Nat) (call : Call) (email password : String) (uid : Uid)
      (h : s.Accepts i call (.result uid)) (hrequest : call.request = .signIn email password) :
      Effect P s (.authAnswers i (.result uid))
        ((s.signedIn uid).setStatus i (.awaitingRead uid))
  | signedUp (i : Nat) (call : Call) (email password : String) (user : User) (uid : Uid)
      (h : s.Accepts i call (.result uid))
      (hrequest : call.request = .signUp email password user) (hfresh : uid ∉ s.accounts) :
      Effect P s (.authAnswers i (.result uid))
        (((s.signedUp uid user).setStatus i (.created uid)).complete i (.ok true))
  | readIgnored (i : Nat) (r : ReadResponse) (h : ∀ call, ¬ s.AwaitsRead i call) :
      Effect P s (.readAnswers i r) s
  | notLoaded (i : Nat) (call : Call) (r : ReadResponse) (h : s.AwaitsRead i call)
      (hr : r.user? = none) :
      Effect P s (.readAnswers i r) (s.setStatus i .notLoaded)
  | loaded (i : Nat) (call : Call) (r : ReadResponse) (user : User) (h : s.AwaitsRead i call)
      (hr : r.user? = some user) :
      Effect P s (.readAnswers i r)
        (((s.stores user).setStatus i (.loaded user)).complete i (.ok true))
  | settled (i : Nat) (accepted : Bool) :
      Effect P s (.writeSettles i accepted) (s.writeSettles i accepted)

/-! ## The list is complete -/

theorem Effect.onSignIn {e : Event P} {input : SignInScreen → App} (huser : e.byUser = true)
    (h : ∀ screen, s.window = some (.signIn screen) → screen.presented = .nothing →
      Effect P s e (input screen)) : Effect P s e (s.onSignIn input) := by
  unfold App.onSignIn
  split
  · rename_i screen hwindow
    split
    · rename_i hpresented
      exact h screen hwindow hpresented
    · exact .ignored e huser
  · exact .ignored e huser

theorem Effect.signUpInput (i : SignUpInput P) (signOut : SignOut) :
    Effect P s (.signUpInput i signOut) (s.signUpInput P i signOut) := by
  unfold App.signUpInput
  split
  · rename_i screen hwindow
    split
    · rename_i n flow hflow
      dsimp only
      split
      · exact .flowStepped screen n flow i signOut hwindow hflow
      · rename_i request hrequest
        exact .signUpTapped screen n flow i signOut request hwindow hflow hrequest
    · exact .ignored _ rfl
  · exact .ignored _ rfl

/-- An answer that is taken: the callback of the call, run to its end. -/
theorem Effect.authAccepted {i : Nat} {call : Call} {r : AuthResponse}
    (h : s.Accepts i call r) : Effect P s (.authAnswers i r) (s.authAnswers i r) := by
  have hanswers : s.authAnswers i r =
      (call.request.callback r.result? r.error?).foldl (App.perform i)
        ({ s.register call.request r with
            session := s.session.authAnswers r }.setStatus i (.afterAuth call.request r)) := by
    unfold App.authAnswers
    rw [h.1]
    simp only
    rw [if_pos h.2]
    cases call.request <;> cases r <;> rfl
  rw [hanswers]
  cases r with
  | error code =>
    have hcallback : call.request.callback none (some code) =
        ((branchError code).map fun e => Action.complete (.error e)).toList := by
      cases hcode : branchError code <;>
        cases call.request <;> simp [Request.callback, authCallback, hcode]
    have hregister : s.register call.request (.error code) = s := by
      cases call.request <;> rfl
    have hafter : Status.afterAuth call.request (.error code) = .failed code := by
      cases call.request <;> rfl
    simp only [AuthResponse.result?, AuthResponse.error?, hcallback, hregister, hafter]
    cases hcode : branchError code with
    | none => exact .unknownError i call code h hcode
    | some authError => exact .knownError i call code authError h hcode
  | result uid =>
    cases hrequest : call.request with
    | signIn email password => exact .signedIn i call email password uid h hrequest
    | signUp email password user =>
      have hfresh : uid ∉ s.accounts := by
        have hpossible := h.2.2
        rw [hrequest] at hpossible
        simpa [App.possible] using hpossible
      have hsave : saveNewUser s.database { user with id := uid.val } =
          some (s.database.write uid
            (setValueNode (newUserEntries { user with id := uid.val }))) := by
        simp [saveNewUser]
      have hcase := Effect.signedUp (P := P) i call email password user uid h hrequest hfresh
      simpa [Request.callback, authCallback, AuthResponse.result?, AuthResponse.error?,
        App.perform, App.register, App.setStatus, Status.afterAuth, Session.authAnswers,
        App.signedUp, hsave] using hcase

theorem Effect.authAnswers (i : Nat) (r : AuthResponse) :
    Effect P s (.authAnswers i r) (s.authAnswers i r) := by
  by_cases h : ∃ call, s.Accepts i call r
  · obtain ⟨call, hcall⟩ := h
    exact .authAccepted hcall
  · have hsame : s.authAnswers i r = s := by
      unfold App.authAnswers
      split
      · rfl
      · rename_i call hcall
        exact if_neg fun hguard => h ⟨call, hcall, hguard⟩
    rw [hsame]
    exact .authIgnored i r (fun call hcall => h ⟨call, hcall⟩)

theorem Effect.readAnswers (i : Nat) (r : ReadResponse) :
    Effect P s (.readAnswers i r) (s.readAnswers i r) := by
  unfold App.readAnswers
  cases hcall : s.calls[i]? with
  | none =>
    refine .readIgnored i r fun call h => ?_
    rw [h.1] at hcall
    cases hcall
  | some call =>
    cases hstatus : call.status with
    | awaitingRead uid =>
      have h : s.AwaitsRead i call := ⟨hcall, uid, hstatus⟩
      simp only [hstatus]
      cases hr : r.user? with
      | none =>
        simp only [readCallback, Status.afterRead, hr]
        exact .notLoaded i call r h hr
      | some user =>
        simp only [readCallback, Status.afterRead, hr]
        exact .loaded i call r user h hr
    | _ =>
      simp only [hstatus]
      refine .readIgnored i r fun call' h => ?_
      obtain ⟨hcall', uid, huid⟩ := h
      rw [hcall] at hcall'
      cases hcall'
      rw [hstatus] at huid
      cases huid

/-- Every step is in the list. -/
theorem App.effect (s : App) (e : Event P) : Effect P s e (s.step P e) := by
  cases e with
  | launch signOut => exact .launched signOut
  | sceneConnects =>
    simp only [App.step, App.sceneConnects]
    split
    · rename_i h
      exact .rootMain h
    · rename_i h
      exact .rootSignIn (by simpa using h)
  | emailText text =>
    refine .onSignIn rfl fun screen hwindow hpresented => ?_
    exact .uncovered _ rfl screen _ hwindow hpresented
  | passwordText text =>
    refine .onSignIn rfl fun screen hwindow hpresented => ?_
    exact .uncovered _ rfl screen _ hwindow hpresented
  | tapSignIn =>
    refine .onSignIn rfl fun screen hwindow hpresented => ?_
    split
    · exact .signInTapped screen hwindow
    · exact .ignored _ rfl
  | tapSignUp =>
    refine .onSignIn rfl fun screen hwindow hpresented => ?_
    exact .signUpOpened screen hwindow
  | dismissAlert =>
    simp only [App.step, App.dismissAlert]
    split
    · rename_i screen hwindow
      split
      · exact .uncovered _ rfl screen _ hwindow rfl
      · exact .ignored _ rfl
    · exact .ignored _ rfl
  | signUpInput i signOut => exact .signUpInput i signOut
  | authAnswers i r => exact .authAnswers i r
  | readAnswers i r => exact .readAnswers i r
  | writeSettles i accepted => exact .settled i accepted

end BetweenUS.Application
