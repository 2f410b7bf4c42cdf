/-
BetweenUS.Manager.AuthManagerTheorems — one call of `signIn` or `signUp`
on its own: how often it reports, and what it leaves of the session.

Everything rests on `Request.run_error`, `signIn_run_result` and
`signUp_run_result`, which say what a call performs for each way Auth can
answer. The four ways a call stays silent are then visible:

* an Auth error `branchError` does not know;
* a cancelled read, a snapshot that is no dictionary, or a dictionary
  that does not decode — one case here, `ReadResponse.user? = none`.

`reportsOnce_iff` and `allOrNothing_iff` say that these are the only ways
the two expectations fail, plus, for the subjects, a view model that is
gone by the time the completion runs (`[weak self]`), and minus, for the
session, a sign-in to the account that is current already.
-/
import BetweenUS.Rogin.LoginViewModel

namespace BetweenUS.Manager

open BetweenUS.Model BetweenUS.Rogin

/-! ## What a call performs -/

/-- The error codes `branchError` has a message for. -/
def KnownCode (code : Int) : Prop := code = 17007 ∨ code = 17011 ∨ code = 17009

theorem branchError_isSome_iff (code : Int) :
    (branchError code).isSome = true ↔ KnownCode code := by
  unfold branchError KnownCode
  split
  · simp [*]
  · split
    · simp [*]
    · split <;> simp [*]

theorem branchError_eq_none_of_not_known {code : Int} (h : ¬ KnownCode code) :
    branchError code = none := by
  rw [← branchError_isSome_iff] at h
  simpa using h

/-- After an Auth error a call has at most reported the failure. -/
theorem Request.run_error (r : Request) (code : Int) (users : Uid → ReadResponse) :
    r.run ⟨.error code, users⟩
      = ((branchError code).map fun e => Action.complete (.error e)).toList := by
  cases hb : branchError code with
  | none =>
    cases r <;> simp [Request.run, Request.callback, authCallback,
      AuthResponse.error?, hb]
  | some e =>
    cases r <;> simp [Request.run, Request.callback, authCallback,
      AuthResponse.error?, AuthResponse.result?, hb, Action.followedBy]

theorem signIn_run_result (email password : String) (uid : Uid)
    (users : Uid → ReadResponse) :
    (Request.signIn email password).run ⟨.result uid, users⟩
      = .loadUser uid :: readCallback (users uid) := by
  simp [Request.run, Request.callback, authCallback, AuthResponse.error?,
    AuthResponse.result?, Action.followedBy]

theorem signUp_run_result (email password : String) (user : User) (uid : Uid)
    (users : Uid → ReadResponse) :
    (Request.signUp email password user).run ⟨.result uid, users⟩
      = [.saveNewUser { user with id := uid.val }, .complete (.ok true)] := by
  simp [Request.run, Request.callback, authCallback, AuthResponse.error?,
    AuthResponse.result?, Action.followedBy]

theorem completions_readCallback (read : ReadResponse) :
    completions (readCallback read) = (read.user?.map fun _ => .ok true).toList := by
  cases h : read.user? <;> simp [readCallback, completions, h]

/-! ## Reporting -/

/-- The call is to be reported as a success: Auth gave a result and, for a
sign-in, the record decoded to a `User`. -/
def Request.Succeeds (r : Request) (b : Backend) : Prop :=
  match b.auth, r with
  | .error _, _ => False
  | .result uid, .signIn _ _ => (b.users uid).user?.isSome = true
  | .result _, .signUp _ _ _ => True

/-- What the completion `{ [weak self] in self?.authCompletion(result: $0) }`
of a view model fires, for the results it is invoked with. -/
def firedSubjects (alive : Bool) (results : List (Except AuthError Bool)) :
    List SubjectEvent :=
  if alive then results.map authCompletion else []

/-- The completion is invoked exactly once, exactly one subject fires, and
it is a success exactly when the call is to succeed. -/
def ReportsOnce (r : Request) (b : Backend) (alive : Bool) : Prop :=
  (completions (r.run b)).length = 1 ∧
    (firedSubjects alive (completions (r.run b))).length = 1 ∧
    ((∃ v, Except.ok v ∈ completions (r.run b)) ↔ r.Succeeds b)

/-- The steps of the call end in a way the code has an answer for. -/
def Request.Answered (r : Request) (b : Backend) : Prop :=
  match b.auth, r with
  | .error code, _ => KnownCode code
  | .result uid, .signIn _ _ => (b.users uid).user?.isSome = true
  | .result _, .signUp _ _ _ => True

/-- What the completion is invoked with, by the way the call ends. -/
theorem completions_run (r : Request) (b : Backend) :
    (r.Answered b → ∃ result, completions (r.run b) = [result] ∧
      ((∃ v, result = .ok v) ↔ r.Succeeds b)) ∧
    (¬ r.Answered b → completions (r.run b) = []) := by
  obtain ⟨auth, users⟩ := b
  cases auth with
  | error code =>
    rw [Request.run_error]
    constructor
    · intro h
      obtain ⟨e, he⟩ := Option.isSome_iff_exists.mp
        ((branchError_isSome_iff code).mpr h)
      exact ⟨.error e, by simp [he, completions], by simp [Request.Succeeds]⟩
    · intro h
      simp [branchError_eq_none_of_not_known h, completions]
  | result uid =>
    cases r with
    | signIn email password =>
      rw [signIn_run_result]
      have hcomp : completions (.loadUser uid :: readCallback (users uid))
          = ((users uid).user?.map fun _ => .ok true).toList :=
        completions_readCallback (users uid)
      rw [hcomp]
      cases hu : (users uid).user? with
      | none => simp [Request.Answered, hu]
      | some user => simp [Request.Answered, Request.Succeeds, hu]
    | signUp email password user =>
      rw [signUp_run_result]
      simp [completions, Request.Answered, Request.Succeeds]

/-- **A call reports exactly once exactly when** its error code is known
or its record decodes, and the view model that made it still exists. -/
theorem reportsOnce_iff (r : Request) (b : Backend) (alive : Bool) :
    ReportsOnce r b alive ↔ r.Answered b ∧ alive = true := by
  obtain ⟨hyes, hno⟩ := completions_run r b
  unfold ReportsOnce firedSubjects
  by_cases ha : r.Answered b
  · obtain ⟨result, hc, hs⟩ := hyes ha
    have hmem : (∃ v, Except.ok v ∈ [result]) ↔ r.Succeeds b := by
      rw [← hs]
      simp [eq_comm]
    rw [hc]
    cases alive
    · simp
    · simp only [List.length_cons, List.length_nil, List.map_cons, List.map_nil,
        if_true, hmem, ha, and_self]
  · rw [hno ha]
    simp [ha]

/-- Firebase's code for a network error. -/
def networkError : Int := 17020

/-- A sign-in that fails for want of a network is never reported. -/
theorem networkError_not_reported :
    ¬ ReportsOnce (.signIn "a@b.co" "abcdef1") ⟨.error networkError, fun _ => .cancelled⟩
      true := by
  rintro ⟨h, -, -⟩
  simp [Request.run_error, branchError, networkError, completions] at h

/-! ## The session -/

/-- A sign-in that is not reported as a success leaves the session as it
was; one that is leaves the current account with its own record loaded. -/
def AllOrNothing (s : Session) (r : Request) (b : Backend) : Prop :=
  ((¬ ∃ v, Except.ok v ∈ completions (r.run b)) → s.after r b = s) ∧
    ((∃ v, Except.ok v ∈ completions (r.run b)) →
      ∃ uid user, (s.after r b).currentUser = some uid ∧
        (b.users uid).user? = some user ∧ (s.after r b).user = some user)

theorem Session.after_error (s : Session) (r : Request) (code : Int)
    (users : Uid → ReadResponse) : s.after r ⟨.error code, users⟩ = s := by
  unfold Session.after
  rw [Request.run_error]
  cases branchError code <;> rfl

/-- The session after a sign-in Auth answered with a result. -/
theorem Session.after_signIn_result (s : Session) (email password : String) (uid : Uid)
    (users : Uid → ReadResponse) :
    s.after (.signIn email password) ⟨.result uid, users⟩
      = { currentUser := some uid
          user := ((users uid).user?.map some).getD s.user } := by
  unfold Session.after
  rw [signIn_run_result]
  cases h : (users uid).user? <;> simp [readCallback, h, Session.perform, Session.authAnswers]

/-- **A sign-in is all or nothing exactly when** Auth answers with an
error, or the record of the account decodes, or that account was current
already. -/
theorem allOrNothing_iff (s : Session) (email password : String) (b : Backend) :
    AllOrNothing s (.signIn email password) b ↔
      match b.auth with
      | .error _ => True
      | .result uid => (b.users uid).user?.isSome = true ∨ s.currentUser = some uid := by
  obtain ⟨auth, users⟩ := b
  cases auth with
  | error code =>
    simp only [iff_true]
    refine ⟨fun _ => Session.after_error s _ code users, ?_⟩
    rintro ⟨v, hv⟩
    rw [Request.run_error] at hv
    cases hb : branchError code <;> simp [hb, completions] at hv
  | result uid =>
    have hc : completions ((Request.signIn email password).run ⟨.result uid, users⟩)
        = ((users uid).user?.map fun _ => .ok true).toList := by
      rw [signIn_run_result]
      exact completions_readCallback (users uid)
    show AllOrNothing s _ _ ↔ (users uid).user?.isSome = true ∨ s.currentUser = some uid
    unfold AllOrNothing
    rw [hc, Session.after_signIn_result]
    cases hu : (users uid).user? with
    | none =>
      -- nothing was reported, so the session must be untouched
      simp only [Option.map_none, Option.toList_none, List.not_mem_nil, exists_false,
        not_false_eq_true, true_implies, false_implies, and_true, Option.getD_none,
        Option.isSome_none, Bool.false_eq_true, false_or]
      constructor
      · intro h
        exact (congrArg Session.currentUser h).symm
      · intro h
        obtain ⟨current, user⟩ := s
        simp only at h
        rw [h]
    | some user => simp [hu]

def sampleUid : Uid := ⟨"uid", by decide⟩

/-- A sign-in whose record cannot be read changes `currentUser` and is not
reported. -/
theorem signIn_changes_currentUser_silently :
    ¬ AllOrNothing ⟨none, none⟩ (.signIn "a@b.co" "abcdef1")
        ⟨.result sampleUid, fun _ => .value .null⟩ := by
  rintro ⟨h, -⟩
  have hsilent : ¬ ∃ v, Except.ok v ∈ completions
      ((Request.signIn "a@b.co" "abcdef1").run
        ⟨.result sampleUid, fun _ => .value .null⟩) := by
    rw [signIn_run_result]
    simp [completions, readCallback, ReadResponse.user?, userOfSnapshot]
  have hsame := h hsilent
  rw [Session.after_signIn_result] at hsame
  simp at hsame

end BetweenUS.Manager
