/-
BetweenUS.Manager.AuthManager — `AuthManager.swift`, with the two pieces
of session state it touches: Firebase's `currentUser` and
`UserInformation.shared.user`.

`signIn` and `signUp` only start a request; everything they do happens in
callbacks. A callback is modelled by the list of `Action`s it performs,
in order: invoking the completion, starting the `users/<uid>` read,
saving a new user, storing the loaded user in `UserInformation.shared`.
An empty list is an early return.

The two Auth callbacks share their error handling (`authCallback`):

* an error with a code `branchError` knows completes with a failure, and
  falls through to `guard let result`;
* ⚠️ an error with ANY OTHER code returns without completing.

The read callback performs nothing when the read is cancelled, the
snapshot is not a dictionary, or the dictionary does not decode.

`self` in the callbacks is `AuthManager.shared`, which is never released,
so `guard let self` always passes. Firebase's side of a request is in
`Session.authAnswers`: `currentUser` is replaced BEFORE the callback runs
on a result, and untouched on an error.
-/
import BetweenUS.Manager.FBUserDatabase

namespace BetweenUS.Manager

open BetweenUS.Model

/-! ## Errors -/

/-- `AuthManager.AuthError`. -/
inductive AuthError where
  | error (type message : String)
  deriving DecidableEq, Repr

/-- `branchError(code:)`. -/
def branchError (code : Int) : Option AuthError :=
  if code = 17007 then
    some (.error "signUp" "이미 있는 이메일입니다")
  else if code = 17011 then
    some (.error "signIn" "존재하지 않는 이메일입니다")
  else if code = 17009 then
    some (.error "signIn" "비밀번호가 일치하지 않습니다")
  else none

/-! ## Session state -/

/-- An account's uid. Firebase issues uids that are legal database keys. -/
abbrev Uid := DbKey

/-- `Auth.auth().currentUser` (its uid) and `UserInformation.shared.user`. -/
structure Session where
  currentUser : Option Uid
  user : Option User
  deriving DecidableEq, Repr

/-- `isLogin()`. -/
def Session.isLogin (s : Session) : Bool :=
  match s.currentUser with
  | none => false
  | some _ => true

/-- How a call of `Auth.auth().signOut()` ends. -/
inductive SignOut where
  | succeeds
  | throws
  deriving DecidableEq, Repr

/-- `logout()`: a failed sign-out is printed and otherwise ignored, and
`UserInformation.shared` is left alone either way. -/
def Session.logout (s : Session) : SignOut → Session
  | .succeeds => { s with currentUser := none }
  | .throws => s

/-! ## Answers of the backend -/

/-- What Firebase Auth answers a sign-in or a createUser with: exactly one
of an error and a result. -/
inductive AuthResponse where
  | error (code : Int)
  | result (uid : Uid)
  deriving DecidableEq, Repr

/-- The `error` argument of the callback. -/
def AuthResponse.error? : AuthResponse → Option Int
  | .error code => some code
  | .result _ => none

/-- The `result` argument of the callback. -/
def AuthResponse.result? : AuthResponse → Option Uid
  | .error _ => none
  | .result uid => some uid

/-- How a single-event read of `users/<uid>` ends. -/
inductive ReadResponse where
  | value (snapshot : FBValue)
  | cancelled

/-- The `User` a read decodes to, if it does. -/
def ReadResponse.user? : ReadResponse → Option User
  | .value snapshot => userOfSnapshot snapshot
  | .cancelled => none

/-- Firebase's own part of an answer. -/
def Session.authAnswers (s : Session) : AuthResponse → Session
  | .error _ => s
  | .result uid => { s with currentUser := some uid }

/-! ## Callbacks -/

/-- What a callback does. -/
inductive Action where
  | complete (result : Except AuthError Bool)
  | loadUser (uid : Uid)
  | saveNewUser (user : User)
  /-- `UserInformation.shared.user = user`. -/
  | storeUser (user : User)

/-- The callback both requests hand to Firebase Auth, up to what is done
with a result. -/
def authCallback (onResult : Uid → List Action)
    (result : Option Uid) (error : Option Int) : List Action :=
  let withResult : List Action :=
    match result with
    | none => []
    | some uid => onResult uid
  match error with
  | none => withResult
  | some code =>
      match branchError code with
      | none => []
      | some authError => .complete (.error authError) :: withResult

/-- A call of `signIn` or of `signUp`, with what its callback captures. -/
inductive Request where
  | signIn (email password : String)
  | signUp (email password : String) (user : User)
  deriving DecidableEq, Repr

/-- The callback of `signIn` reads the user's record; the one of `signUp`
writes it under the new uid and completes at once. -/
def Request.callback : Request → Option Uid → Option Int → List Action
  | .signIn _ _ => authCallback fun uid => [.loadUser uid]
  | .signUp _ _ user => authCallback fun uid =>
      [.saveNewUser { user with id := uid.val }, .complete (.ok true)]

/-- The completion `signIn` hands to `loadUser`, as far as the read gets. -/
def readCallback (read : ReadResponse) : List Action :=
  match read.user? with
  | none => []
  | some user => [.storeUser user, .complete (.ok true)]

/-! ## One call on its own -/

/-- How the backend steps of one call end: Auth's answer, and what a read
of each `users/<uid>` would give. -/
structure Backend where
  auth : AuthResponse
  users : Uid → ReadResponse

/-- An action together with the callback of the read it may start. -/
def Action.followedBy (b : Backend) : Action → List Action
  | .loadUser uid => .loadUser uid :: readCallback (b.users uid)
  | a => [a]

/-- Everything a call performs once all its backend steps have ended. -/
def Request.run (r : Request) (b : Backend) : List Action :=
  (r.callback b.auth.result? b.auth.error?).flatMap (Action.followedBy b)

/-- The results the completion is invoked with, in order. -/
def completions (actions : List Action) : List (Except AuthError Bool) :=
  actions.filterMap fun
    | .complete result => some result
    | _ => none

/-- An action's effect on the session. -/
def Session.perform (s : Session) : Action → Session
  | .storeUser user => { s with user := some user }
  | _ => s

/-- The session after a call that ran with no other request in flight. -/
def Session.after (s : Session) (r : Request) (b : Backend) : Session :=
  (r.run b).foldl Session.perform (s.authAnswers b.auth)

end BetweenUS.Manager
