/-
BetweenUS.Application.CallTheorems — one call inside the app is the call
on its own.

`Request.run` and `Session.after` describe a call of `AuthManager` with no
other request in flight: all its backend steps, one after the other. In
the app the same call is answered in separate steps, between which
anything can happen. `run_answers` says that when nothing does, the two
are the same: the app ends with the session of `Session.after`, and the
completion was invoked with the results of `Request.run`.
-/
import BetweenUS.Application.RequestTheorems
import BetweenUS.Manager.AuthManagerTheorems
import BetweenUS.Runs.Machine

namespace BetweenUS.Application

open BetweenUS.Model BetweenUS.Manager BetweenUS.Rogin BetweenUS.Runs

variable {P : Platform} {s : App} {i : Nat} {call : Call}

/-- The events that answer call `i` to its end. -/
def answers (i : Nat) (request : Request) (b : Backend) : List (Event P) :=
  match request, b.auth with
  | .signIn _ _, .result uid => [.authAnswers i b.auth, .readAnswers i (b.users uid)]
  | _, _ => [.authAnswers i b.auth]

/-- What became of call `i`: the same tap, with these results reported
on top of the ones before. -/
def Reported (s : App) (i : Nat) (call : Call) (results : List (Except AuthError Bool)) :
    Prop :=
  ∃ call', s.calls[i]? = some call' ∧ call'.toTap = call.toTap ∧
    call'.reports = call.reports ++ results

theorem Reported.setStatus (h : s.calls[i]? = some call) (status : Status) :
    Reported (s.setStatus i status) i call [] :=
  ⟨_, App.getElem?_setStatus h status, rfl, by simp⟩

theorem Reported.complete (h : s.calls[i]? = some call) (status : Status)
    (result : Except AuthError Bool) :
    Reported ((s.setStatus i status).complete i result) i call [result] := by
  have hcall := App.getElem?_setStatus h status
  unfold App.complete
  rw [hcall]
  simp only [Reported, List.getElem?_modify_eq, hcall, Option.map_eq_map, Option.map_some]
  exact ⟨_, rfl, rfl, rfl⟩

/-- Auth's answer, where no read follows it. -/
theorem step_authAnswers {r : AuthResponse} (h : s.Accepts i call r)
    (users : Uid → ReadResponse) (hread : ∀ email password uid,
      call.request = .signIn email password → r ≠ .result uid) :
    (s.step P (.authAnswers i r)).session = s.session.after call.request ⟨r, users⟩ ∧
      Reported (s.step P (.authAnswers i r)) i call
        (completions (call.request.run ⟨r, users⟩)) := by
  have heffect := s.effect (P := P) (.authAnswers i r)
  generalize s.step P (.authAnswers i r) = s' at heffect ⊢
  cases heffect with
  | ignored e huser => cases huser
  | uncovered e huser => cases huser
  | authIgnored i r hno => exact absurd h (hno call)
  | unknownError i call' code h' hcode =>
    rw [Session.after_error, Request.run_error, hcode]
    exact ⟨rfl, .setStatus h.1 _⟩
  | knownError i call' code authError h' hcode =>
    rw [Session.after_error, Request.run_error, hcode, App.session_complete]
    exact ⟨rfl, .complete h.1 _ _⟩
  | signedIn i call' email password uid h' hrequest =>
    obtain rfl : call = call' := Option.some.inj (h.1.symm.trans h'.1)
    exact absurd rfl (hread email password uid hrequest)
  | signedUp i call' email password user uid h' hrequest hfresh =>
    obtain rfl : call = call' := Option.some.inj (h.1.symm.trans h'.1)
    rw [App.session_complete, hrequest, Session.after, signUp_run_result]
    refine ⟨rfl, ?_⟩
    exact .complete (s := s.signedUp uid user) h.1 _ _

/-- A sign-in's result, up to the read it starts. -/
theorem step_signIn_result {uid : Uid} {email password : String}
    (h : s.Accepts i call (.result uid)) (hrequest : call.request = .signIn email password) :
    s.step P (.authAnswers i (.result uid))
      = (s.signedIn uid).setStatus i (.awaitingRead uid) := by
  have heffect := s.effect (P := P) (.authAnswers i (.result uid))
  generalize s.step P (.authAnswers i (.result uid)) = s' at heffect ⊢
  cases heffect with
  | ignored e huser => cases huser
  | uncovered e huser => cases huser
  | authIgnored i r hno => exact absurd h (hno call)
  | signedIn => rfl
  | signedUp i call' email' password' user uid h' hrequest' =>
    obtain rfl : call = call' := Option.some.inj (h.1.symm.trans h'.1)
    rw [hrequest] at hrequest'
    cases hrequest'

/-- The read that follows a sign-in's result. -/
theorem step_readAnswers {uid : Uid} (h : s.calls[i]? = some call)
    (hstatus : call.status = .awaitingRead uid) (r : ReadResponse) :
    (s.step P (.readAnswers i r)).session
        = (readCallback r).foldl Session.perform s.session ∧
      Reported (s.step P (.readAnswers i r)) i call (completions (readCallback r)) := by
  have heffect := s.effect (P := P) (.readAnswers i r)
  generalize s.step P (.readAnswers i r) = s' at heffect ⊢
  cases heffect with
  | ignored e huser => cases huser
  | uncovered e huser => cases huser
  | readIgnored i r hno => exact absurd ⟨h, uid, hstatus⟩ (hno call)
  | notLoaded i call' r h' hr =>
    rw [completions_readCallback, readCallback, hr]
    exact ⟨rfl, .setStatus h _⟩
  | loaded i call' r user h' hr =>
    rw [App.session_complete, completions_readCallback, readCallback, hr]
    refine ⟨rfl, ?_⟩
    exact .complete (s := s.stores user) h _ _

/-- **A call that is answered to its end with nothing in between** leaves
the session, and reports the results, of the call on its own. -/
theorem run_answers (b : Backend) (h : s.Accepts i call b.auth) :
    (run (App.step P) s (answers i call.request b)).session
        = s.session.after call.request b ∧
      Reported (run (App.step P) s (answers i call.request b)) i call
        (completions (call.request.run b)) := by
  obtain ⟨auth, users⟩ := b
  cases hrequest : call.request with
  | signUp email password user =>
    have hstep := step_authAnswers (P := P) h users (by simp [hrequest])
    rw [hrequest] at hstep
    exact hstep
  | signIn email password =>
    cases auth with
    | error code =>
      have hstep := step_authAnswers (P := P) h users (by simp)
      rw [hrequest] at hstep
      exact hstep
    | result uid =>
      have hauth := step_signIn_result (P := P) h hrequest
      have hcall : ((s.signedIn uid).setStatus i (.awaitingRead uid)).calls[i]?
          = some { call with status := .awaitingRead uid } :=
        App.getElem?_setStatus (s := s.signedIn uid) h.1 _
      have hread := step_readAnswers (P := P) hcall rfl (users uid)
      have hcompletions : completions ((Request.signIn email password).run
          ⟨.result uid, users⟩) = completions (readCallback (users uid)) := by
        rw [signIn_run_result]
        rfl
      rw [hcompletions]
      simp only [answers, run, List.foldl_cons, List.foldl_nil, hauth]
      refine ⟨?_, hread.2⟩
      rw [hread.1, Session.after, signIn_run_result]
      rfl

/-- The app after a tap of the sign-in button. -/
def signInTapped : App :=
  run (App.step .gregorian) freshDevice
    [.sceneConnects, .emailText (some "a@b.co"), .passwordText (some "abcdef1"), .tapSignIn]

/-- Auth knows the account, and its record decodes. -/
def recordThere : Backend where
  auth := .result uid₁
  users _ := .value (.dict
    [("id", .string "uid1"), ("email", .string "a@b.co"), ("name", .string "name"),
     ("nickName", .string "nick"), ("birthday", .string "2000년 01월 02일")])

theorem run_answers_signInTapped :
    ∃ call, signInTapped.Accepts 0 call recordThere.auth ∧
      (run (App.step .gregorian) signInTapped (answers 0 call.request recordThere)).session
          = signInTapped.session.after call.request recordThere ∧
        Reported (run (App.step .gregorian) signInTapped (answers 0 call.request recordThere)) 0
          call (completions (call.request.run recordThere)) :=
  ⟨_, ⟨rfl, rfl, rfl⟩, run_answers recordThere ⟨rfl, rfl, rfl⟩⟩

end BetweenUS.Application
