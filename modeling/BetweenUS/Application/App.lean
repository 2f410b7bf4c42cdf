/-
BetweenUS.Application.App — the whole app as one state machine: `AppDelegate`,
`SceneDelegate`, the two sign-in screens, `AuthManager` with every request
in flight, and the two Firebase services.

Nothing in the code sequences requests. Every tap of an enabled button
starts a call, any number of calls can be in flight, and each is answered
on its own, at any time and in any order. A call is therefore an entry
of a table (`calls`), and an answer addresses it by its position.

View models are named by their kind and a number. A completion reaches
the view model that made the call only if that view model still exists:
the sign-in view model lives as long as its page is the window's root, the
sign-up view model as long as its screen is presented.

Presentation follows UIKit. The sign-in page presents at most one thing,
and presenting a second one has no effect; what is presented covers the
page, so its own controls deliver nothing meanwhile.

Three fields are history variables the code never reads: `Tap.origin` is
the view model as it stood when the button was tapped, and `reports` and
`fired` record what became of a call's completion.
-/
import BetweenUS.Rogin.SignInForm
import BetweenUS.Rogin.SignUpFlow

namespace BetweenUS.Application

open BetweenUS.Model BetweenUS.Manager BetweenUS.Rogin BetweenUS.Storage

/-! ## Screens -/

/-- The identity of a view model. -/
inductive VmId where
  | signIn (n : Nat)
  | signUp (n : Nat)
  deriving DecidableEq, Repr

/-- What the sign-in page presents. -/
inductive Presented where
  | nothing
  | alert (message : String)
  | mainTabbar
  | signUp (n : Nat) (flow : SignUpFlow)

/-- A `SignInViewController`. -/
structure SignInScreen where
  n : Nat
  form : SignInForm
  presented : Presented

/-- The window's root view controller. -/
inductive Root where
  | mainTabbar
  | signIn (screen : SignInScreen)

def Presented.isMain : Presented → Bool
  | .mainTabbar => true
  | _ => false

/-- `MainTabbarViewController` is on screen. -/
def Root.showsMain : Root → Bool
  | .mainTabbar => true
  | .signIn screen => screen.presented.isMain

/-- The view model `id` exists. -/
def Root.owns : VmId → Root → Bool
  | _, .mainTabbar => false
  | .signIn n, .signIn screen => screen.n == n
  | .signUp n, .signIn screen =>
      match screen.presented with
      | .signUp n' _ => n' == n
      | _ => false

/-- The sinks of the sign-in page. -/
def SignInScreen.hear (s : SignInScreen) (e : SubjectEvent) : SignInScreen :=
  match s.presented, e with
  | .nothing, .authSuccess => { s with presented := .mainTabbar }
  | .nothing, .authFailure message => { s with presented := .alert message }
  | _, _ => s

/-- The sign-up screen after a step of it. -/
def presentedFlow (n : Nat) : Option SignUpFlow → Presented
  | some flow => .signUp n flow
  | none => .nothing

/-- A subject of the view model `id` fires. -/
def Root.deliver (e : SubjectEvent) : VmId → Root → Root
  | _, .mainTabbar => .mainTabbar
  | .signIn n, .signIn screen =>
      if screen.n = n then .signIn (screen.hear e) else .signIn screen
  | .signUp n, .signIn screen =>
      match screen.presented with
      | .signUp n' flow =>
          if n' = n then
            .signIn { screen with presented := presentedFlow n' (flow.hear e) }
          else .signIn screen
      | _ => .signIn screen

/-! ## Calls -/

/-- The view model that made a call, as it stood at the tap. -/
inductive Origin where
  | signIn (vm : LoginViewModel)
  | signUp (vm : SignUpViewModel)
  deriving DecidableEq, Repr

/-- How far a call has got. -/
inductive Status where
  | awaitingAuth
  | awaitingRead (uid : Uid)
  /-- Auth answered with an error. -/
  | failed (code : Int)
  /-- createUser answered with a new account. -/
  | created (uid : Uid)
  | loaded (user : User)
  /-- The read ended without a `User`. -/
  | notLoaded
  /-- The process ended before the call did. -/
  | lost
  deriving DecidableEq, Repr

/-- A tap that made a call: who made it, and the arguments it made it with. -/
structure Tap where
  owner : VmId
  origin : Origin
  request : Request

structure Call extends Tap where
  status : Status := .awaitingAuth
  reports : List (Except AuthError Bool) := []
  fired : List SubjectEvent := []

/-- The status Auth's answer leads to. -/
def Status.afterAuth : Request → AuthResponse → Status
  | _, .error code => .failed code
  | .signIn _ _, .result uid => .awaitingRead uid
  | .signUp _ _ _, .result uid => .created uid

/-- The status the read's end leads to. -/
def Status.afterRead (r : ReadResponse) : Status :=
  match r.user? with
  | some user => .loaded user
  | none => .notLoaded

def Call.lose (c : Call) : Call :=
  match c.status with
  | .awaitingAuth | .awaitingRead _ => { c with status := .lost }
  | _ => c

/-! ## The app -/

structure App where
  session : Session
  database : Database
  /-- The accounts Firebase Auth has. -/
  accounts : List Uid
  window : Option Root
  /-- Every call made so far. -/
  calls : List Call
  /-- The number of the next view model. -/
  nextId : Nat

namespace App

def showsMain (s : App) : Bool := s.window.any Root.showsMain

def owns (s : App) (id : VmId) : Bool := s.window.any (Root.owns id)

/-! ### Callbacks -/

def setStatus (s : App) (i : Nat) (status : Status) : App :=
  { s with calls := s.calls.modify i fun c => { c with status := status } }

/-- The completion of call `i` is invoked: `authCompletion` runs if the view
model that made the call still exists. -/
def complete (s : App) (i : Nat) (result : Except AuthError Bool) : App :=
  match s.calls[i]? with
  | none => s
  | some call =>
      let fired := if s.owns call.owner then [authCompletion result] else []
      { s with
          calls := s.calls.modify i fun c =>
            { c with reports := c.reports ++ [result], fired := c.fired ++ fired }
          window := s.window.map (Root.deliver (authCompletion result) call.owner) }

/-- An action of a callback of call `i`. -/
def perform (i : Nat) (s : App) : Action → App
  | .complete result => s.complete i result
  -- the read in flight is the call's status
  | .loadUser _ => s
  | .saveNewUser user =>
      { s with database := (saveNewUser s.database user).getD s.database }
  | .storeUser user => { s with session := s.session.perform (.storeUser user) }

/-- Auth may give this answer: an account it creates is a new one. -/
def possible (s : App) : Request → AuthResponse → Bool
  | .signUp _ _ _, .result uid => !s.accounts.contains uid
  | _, _ => true

def register (s : App) : Request → AuthResponse → App
  | .signUp _ _ _, .result uid => { s with accounts := uid :: s.accounts }
  | _, _ => s

/-- Auth answers call `i`: first Firebase's own state, then the callback. -/
def authAnswers (s : App) (i : Nat) (r : AuthResponse) : App :=
  match s.calls[i]? with
  | none => s
  | some call =>
      if call.status = .awaitingAuth ∧ s.possible call.request r then
        let s := s.register call.request r
        let s := { s with session := s.session.authAnswers r }
        let s := s.setStatus i (.afterAuth call.request r)
        (call.request.callback r.result? r.error?).foldl (perform i) s
      else s

/-- The read of call `i` ends. -/
def readAnswers (s : App) (i : Nat) (r : ReadResponse) : App :=
  match s.calls[i]? with
  | none => s
  | some call =>
      match call.status with
      | .awaitingRead _ => (readCallback r).foldl (perform i) (s.setStatus i (.afterRead r))
      | _ => s

/-- The server settles the `i`-th unsettled write. -/
def writeSettles (s : App) (i : Nat) (accepted : Bool) : App :=
  { s with database := if accepted then s.database.acknowledge i else s.database.revert i }

/-! ### Launch and scenes -/

/-- `application(_:didFinishLaunchingWithOptions:)` in a new process.
Firebase restores the current user it had, `UserInformation.shared` starts
empty, and the old process took its screens and callbacks with it. So it
did the writes that were not settled: the app never turns on
`persistenceEnabled`, and without it the SDK has them in memory only. -/
def launch (s : App) (signOut : SignOut) : App :=
  { s with
      session := ({ s.session with user := none } : Session).logout signOut
      database := s.database.restart
      window := none
      calls := s.calls.map Call.lose }

/-- `scene(_:willConnectTo:options:)`. -/
def sceneConnects (s : App) : App :=
  if s.session.isLogin then
    { s with window := some .mainTabbar }
  else
    { s with
        window := some (.signIn
          { n := s.nextId, form := SignInForm.viewDidLoad, presented := .nothing })
        nextId := s.nextId + 1 }

/-! ### The sign-in page -/

/-- An input of the sign-in page, delivered while nothing covers it. -/
def onSignIn (s : App) (input : SignInScreen → App) : App :=
  match s.window with
  | some (.signIn screen) =>
      match screen.presented with
      | .nothing => input screen
      | _ => s
  | _ => s

def setScreen (s : App) (screen : SignInScreen) : App :=
  { s with window := some (.signIn screen) }

def start (s : App) (tap : Tap) : App :=
  { s with calls := s.calls ++ [{ tap with }] }

def tapSignIn (s : App) : App :=
  s.onSignIn fun screen =>
    if screen.form.signInButtonEnabled then
      s.start ⟨.signIn screen.n, .signIn screen.form.viewModel, screen.form.request⟩
    else s

/-- `presentSignUpViewController()`. -/
def tapSignUp (P : Platform) (s : App) : App :=
  s.onSignIn fun screen =>
    { s.setScreen { screen with presented := .signUp s.nextId (SignUpFlow.start P) } with
        nextId := s.nextId + 1 }

def dismissAlert (s : App) : App :=
  match s.window with
  | some (.signIn screen) =>
      match screen.presented with
      | .alert _ => s.setScreen { screen with presented := .nothing }
      | _ => s
  | _ => s

/-! ### The sign-up screen -/

/-- An input of the sign-up screen. A sign-up tap logs out first; `signOut`
says how that ends. -/
def signUpInput (P : Platform) (s : App) (i : SignUpInput P) (signOut : SignOut) : App :=
  match s.window with
  | some (.signIn screen) =>
      match screen.presented with
      | .signUp n flow =>
          let s' := s.setScreen { screen with presented := presentedFlow n (flow.step P i) }
          match flow.request i with
          | none => s'
          | some request =>
              { s' with session := s'.session.logout signOut }.start
                ⟨.signUp n, .signUp flow.viewModel, request⟩
      | _ => s
  | _ => s

end App

/-! ## Events -/

inductive Event (P : Platform) where
  | launch (signOut : SignOut)
  | sceneConnects
  | emailText (text : Option String)
  | passwordText (text : Option String)
  | tapSignIn
  | tapSignUp
  | dismissAlert
  | signUpInput (i : SignUpInput P) (signOut : SignOut)
  | authAnswers (i : Nat) (r : AuthResponse)
  | readAnswers (i : Nat) (r : ReadResponse)
  | writeSettles (i : Nat) (accepted : Bool)

def App.step (P : Platform) (s : App) : Event P → App
  | .launch signOut => s.launch signOut
  | .sceneConnects => s.sceneConnects
  | .emailText text =>
      s.onSignIn fun screen => s.setScreen { screen with form := screen.form.emailText text }
  | .passwordText text =>
      s.onSignIn fun screen =>
        s.setScreen { screen with form := screen.form.passwordText text }
  | .tapSignIn => s.tapSignIn
  | .tapSignUp => s.tapSignUp P
  | .dismissAlert => s.dismissAlert
  | .signUpInput i signOut => s.signUpInput P i signOut
  | .authAnswers i r => s.authAnswers i r
  | .readAnswers i r => s.readAnswers i r
  | .writeSettles i accepted => s.writeSettles i accepted

/-- The app launched for the first time on a device where Firebase has
`persisted` as its current user, with `records` in the database. -/
def App.launched (persisted : Option Uid) (records : Uid → FBValue) (accounts : List Uid)
    (signOut : SignOut) : App :=
  ({ session := ⟨persisted, none⟩, database := ⟨records, []⟩, accounts := accounts,
     window := none, calls := [], nextId := 0 } : App).launch signOut

end BetweenUS.Application
