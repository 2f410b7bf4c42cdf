/-
BetweenUS.Application.ProvenanceTheorems — where what is reported, stored
and shown comes from, in any run of the app.

Any number of calls is in flight and they are answered in any order; none
of them knows of the others. What holds of all of them together:

* `reports_throughout` — a call has reported what its status says, at most
  once, and has fired at most the one subject of that report;
* `storedUser_throughout` — the user in `UserInformation.shared` came from
  the read of a sign-in. A sign-up never puts one there, a log-out does not
  take it away, and a new process starts without one;
* `presented_throughout` — an alert has the message of an error that a call
  of the same page ended with, and the tab bar is there because a sign-in
  of the same page has loaded its user;
* `credentials_throughout` — every page tracks its form, and every sign-in
  has a validated email and password.

A step changes the list of calls in one of four ways (`CallsMove`), and an
answer is one of six (`Call.Answer`); the invariants go through these.
-/
import BetweenUS.Application.RequestTheorems
import BetweenUS.Rogin.SignInFormTheorems

namespace BetweenUS.Application

open BetweenUS.Model BetweenUS.Manager BetweenUS.Rogin BetweenUS.Runs

variable {P : Platform} {s : App}

/-! ## What a step does to the calls -/

/-- A call, completed while its view model exists or not. -/
def Call.completed (c : Call) (status : Status) (result : Except AuthError Bool) (owned : Bool) :
    Call :=
  { c with
      status := status
      reports := c.reports ++ [result]
      fired := c.fired ++ if owned then [authCompletion result] else [] }

/-- What an answer can make of a call. -/
inductive Call.Answer (owned : Bool) (c : Call) : Call → Prop where
  | unknownError (code : Int) (h : c.status = .awaitingAuth) (hcode : branchError code = none) :
      Answer owned c { c with status := .failed code }
  | knownError (code : Int) (authError : AuthError) (h : c.status = .awaitingAuth)
      (hcode : branchError code = some authError) :
      Answer owned c (c.completed (.failed code) (.error authError) owned)
  | signedIn (uid : Uid) (h : c.status = .awaitingAuth)
      (hrequest : ∃ email password, c.request = .signIn email password) :
      Answer owned c { c with status := .awaitingRead uid }
  | signedUp (uid : Uid) (h : c.status = .awaitingAuth)
      (hrequest : ∃ email password user, c.request = .signUp email password user) :
      Answer owned c (c.completed (.created uid) (.ok true) owned)
  | notLoaded (uid : Uid) (h : c.status = .awaitingRead uid) :
      Answer owned c { c with status := .notLoaded }
  | loaded (uid : Uid) (user : User) (h : c.status = .awaitingRead uid) :
      Answer owned c (c.completed (.loaded user) (.ok true) owned)

inductive CallsMove (calls : List Call) : List Call → Prop where
  | stay : CallsMove calls calls
  | start (tap : Tap) : CallsMove calls (calls ++ [{ toTap := tap }])
  | lose : CallsMove calls (calls.map Call.lose)
  | answer (i : Nat) (owned : Bool) (call call' : Call) (h : calls[i]? = some call)
      (hanswer : call.Answer owned call') : CallsMove calls (calls.set i call')

theorem modify_eq_set {calls : List Call} {i : Nat} {call : Call} (h : calls[i]? = some call)
    (f : Call → Call) : calls.modify i f = calls.set i (f call) := by
  rw [List.modify_eq_set_getElem?, h]
  rfl

theorem App.calls_setStatus {i : Nat} {call : Call} (h : s.calls[i]? = some call)
    (status : Status) :
    (s.setStatus i status).calls = s.calls.set i { call with status := status } :=
  modify_eq_set h _

theorem App.calls_complete {i : Nat} {call : Call} (h : s.calls[i]? = some call) (status : Status)
    (result : Except AuthError Bool) :
    ((s.setStatus i status).complete i result).calls =
      s.calls.set i (call.completed status result (s.owns call.owner)) := by
  have hcall := App.getElem?_setStatus h status
  unfold App.complete
  rw [hcall]
  dsimp only
  rw [modify_eq_set hcall, App.calls_setStatus h, List.set_set]
  rfl

theorem App.calls_step (s : App) (e : Event P) : CallsMove s.calls (s.step P e).calls := by
  have heffect := s.effect e
  generalize s.step P e = s' at heffect ⊢
  cases heffect with
  | ignored | rootMain | rootSignIn | uncovered | signUpOpened | flowStepped | authIgnored
  | readIgnored | settled => exact .stay
  | launched => exact .lose
  | signInTapped => exact .start _
  | signUpTapped => exact .start _
  | unknownError i call code h hcode =>
    rw [App.calls_setStatus h.1]
    exact .answer i false call _ h.1 (.unknownError code h.2.1 hcode)
  | knownError i call code authError h hcode =>
    rw [App.calls_complete h.1]
    exact .answer i _ call _ h.1 (.knownError code authError h.2.1 hcode)
  | signedIn i call email password uid h hrequest =>
    have hcall : (s.signedIn uid).calls[i]? = some call := h.1
    rw [App.calls_setStatus hcall]
    exact .answer i false call _ h.1 (.signedIn uid h.2.1 ⟨email, password, hrequest⟩)
  | signedUp i call email password user uid h hrequest hfresh =>
    have hcall : (s.signedUp uid user).calls[i]? = some call := h.1
    rw [App.calls_complete hcall]
    exact .answer i _ call _ h.1 (.signedUp uid h.2.1 ⟨email, password, user, hrequest⟩)
  | notLoaded i call r h hr =>
    obtain ⟨hcall, uid, hstatus⟩ := h
    rw [App.calls_setStatus hcall]
    exact .answer i false call _ hcall (.notLoaded uid hstatus)
  | loaded i call r user h hr =>
    obtain ⟨hcall, uid, hstatus⟩ := h
    have hcall' : (s.stores user).calls[i]? = some call := hcall
    rw [App.calls_complete hcall']
    exact .answer i _ call _ hcall (.loaded uid user hstatus)

/-- What holds of a new call, and what losing and answering a call keep,
holds of every call. -/
theorem CallsMove.forall {Q : Call → Prop} {calls calls' : List Call}
    (hmove : CallsMove calls calls') (hstart : ∀ tap : Tap, Q { toTap := tap })
    (hlose : ∀ c, Q c → Q c.lose) (hanswer : ∀ owned c c', Q c → Call.Answer owned c c' → Q c')
    (h : ∀ c ∈ calls, Q c) : ∀ c ∈ calls', Q c := by
  intro c hc
  cases hmove with
  | stay => exact h c hc
  | start tap =>
    rcases List.mem_append.mp hc with hc | hc
    · exact h c hc
    · rw [List.mem_singleton.mp hc]
      exact hstart tap
  | lose =>
    obtain ⟨c', hc', rfl⟩ := List.mem_map.mp hc
    exact hlose c' (h c' hc')
  | answer i owned call call' hcall ha =>
    rcases List.mem_or_eq_of_mem_set hc with hc | rfl
    · exact h c hc
    · exact hanswer owned call c (h call (List.mem_of_getElem? hcall)) ha

/-- And what an answered call had not, no step takes from a call. -/
theorem CallsMove.exists {F : Call → Prop} {calls calls' : List Call}
    (hmove : CallsMove calls calls') (hlose : ∀ c, F c → F c.lose)
    (hanswer : ∀ owned c c', Call.Answer owned c c' → ¬ F c) (h : ∃ c ∈ calls, F c) :
    ∃ c ∈ calls', F c := by
  obtain ⟨c, hc, hF⟩ := h
  cases hmove with
  | stay => exact ⟨c, hc, hF⟩
  | start tap => exact ⟨c, List.mem_append_left _ hc, hF⟩
  | lose => exact ⟨c.lose, List.mem_map_of_mem hc, hlose c hF⟩
  | answer i owned call call' hcall ha =>
    obtain ⟨j, hj⟩ := List.mem_iff_getElem?.mp hc
    have hij : i ≠ j := by
      rintro rfl
      obtain rfl : call = c := Option.some.inj (hcall.symm.trans hj)
      exact hanswer owned call call' ha hF
    refine ⟨c, List.mem_of_getElem? (i := j) ?_, hF⟩
    rw [List.getElem?_set_ne hij, hj]

/-! ## Reports -/

/-- What a call has reported when it is in a status. -/
def Status.reports : Status → List (Except AuthError Bool)
  | .failed code => (branchError code).toList.map .error
  | .created _ => [.ok true]
  | .loaded _ => [.ok true]
  | _ => []

/-- A status that only a call of this kind gets into. -/
def Status.fits : Status → Request → Prop
  | .created _, request => ∃ email password user, request = .signUp email password user
  | .awaitingRead _, request => ∃ email password, request = .signIn email password
  | .loaded _, request => ∃ email password, request = .signIn email password
  | .notLoaded, request => ∃ email password, request = .signIn email password
  | _, _ => True

/-- A call whose history is the one its status tells. -/
structure Call.Consistent (c : Call) : Prop where
  reports : c.reports = c.status.reports
  fired : c.fired = [] ∨ c.fired = c.reports.map authCompletion
  fits : c.status.fits c.request

theorem Status.length_reports_le_one (status : Status) : status.reports.length ≤ 1 := by
  cases status with
  | failed code =>
    rw [Status.reports, List.length_map]
    cases branchError code <;> simp
  | _ => simp [Status.reports]

theorem Call.Answer.reports_eq_nil {owned : Bool} {c c' : Call} (h : c.Answer owned c') :
    c.status.reports = [] := by
  cases h <;> simp [*, Status.reports]

namespace Call.Consistent

variable {c c' : Call} {owned : Bool}

theorem start (tap : Tap) : Call.Consistent { toTap := tap } :=
  ⟨rfl, Or.inl rfl, trivial⟩

theorem lose (h : c.Consistent) : c.lose.Consistent := by
  unfold Call.lose
  split
  -- a call that is lost has reported nothing yet
  · rename_i hstatus
    have hreports := h.reports
    rw [hstatus] at hreports
    exact ⟨hreports, h.fired, trivial⟩
  · rename_i uid hstatus
    have hreports := h.reports
    rw [hstatus] at hreports
    exact ⟨hreports, h.fired, trivial⟩
  · exact h

/-- A call whose status has nothing to report has fired nothing. -/
theorem fired_eq_nil (h : c.Consistent) (hnone : c.status.reports = []) : c.fired = [] := by
  rcases h.fired with hfired | hfired
  · exact hfired
  · rw [hfired, h.reports, hnone, List.map_nil]

/-- The first completion of a call. -/
theorem completed (hreports : c.reports = []) (hfired : c.fired = []) {status : Status}
    {result : Except AuthError Bool} (hstatus : status.reports = [result])
    (hfits : status.fits c.request) : (c.completed status result owned).Consistent := by
  refine ⟨?_, ?_, hfits⟩
  · simp [Call.completed, hreports, hstatus]
  · cases owned <;> simp [Call.completed, hreports, hfired]

theorem answer (h : c.Consistent) (ha : c.Answer owned c') : c'.Consistent := by
  have hreports : c.reports = [] := h.reports.trans ha.reports_eq_nil
  have hfired := h.fired_eq_nil ha.reports_eq_nil
  have hfits := h.fits
  cases ha with
  | unknownError code hstatus hcode =>
    exact ⟨by simp [Status.reports, hreports, hcode], Or.inl hfired, trivial⟩
  | knownError code authError hstatus hcode =>
    exact completed hreports hfired (by simp [Status.reports, hcode]) trivial
  | signedIn uid hstatus hrequest => exact ⟨hreports, Or.inl hfired, hrequest⟩
  | signedUp uid hstatus hrequest => exact completed hreports hfired rfl hrequest
  | notLoaded uid hstatus =>
    rw [hstatus] at hfits
    exact ⟨hreports, Or.inl hfired, hfits⟩
  | loaded uid user hstatus =>
    rw [hstatus] at hfits
    exact completed hreports hfired rfl hfits

end Call.Consistent

theorem consistent_step (h : ∀ call ∈ s.calls, call.Consistent) (e : Event P) :
    ∀ call ∈ (s.step P e).calls, call.Consistent :=
  (s.calls_step e).forall .start (fun _ => .lose) (fun _ _ _ => .answer) h

/-- **Each call reports at most once, and what its outcome is**, however
its answers are interleaved with everything else. -/
theorem reports_throughout (P : Platform) (persisted : Option Uid) (records : Uid → FBValue)
    (accounts : List Uid) (signOut : SignOut) (es : List (Event P)) :
    Throughout (App.step P)
      (fun s => ∀ call ∈ s.calls, call.Consistent ∧ call.reports.length ≤ 1)
      (App.launched persisted records accounts signOut) es := by
  refine throughout_of_invariant (I := fun s => ∀ call ∈ s.calls, call.Consistent) ?_ ?_ ?_
  · intro s h call hcall
    have hlength := call.status.length_reports_le_one
    rw [← (h call hcall).reports] at hlength
    exact ⟨h call hcall, hlength⟩
  · intro e _ s h
    exact consistent_step h e
  · simp [App.launched, App.launch]

/-! ## The stored user -/

theorem App.mem_calls_complete {i : Nat} {call : Call} (h : s.calls[i]? = some call)
    (status : Status) (result : Except AuthError Bool) :
    call.completed status result (s.owns call.owner) ∈
      ((s.setStatus i status).complete i result).calls := by
  rw [App.calls_complete h]
  obtain ⟨hi, _⟩ := List.getElem?_eq_some_iff.mp h
  exact List.mem_set hi _

theorem Session.user_logout (session : Session) (signOut : SignOut) :
    (session.logout signOut).user = session.user := by
  cases signOut <;> rfl

/-- A user in `UserInformation.shared` was there before, or has just been
loaded. -/
theorem App.user_step (e : Event P) {user : User} (h : (s.step P e).session.user = some user) :
    s.session.user = some user ∨ ∃ call ∈ (s.step P e).calls, call.status = .loaded user := by
  have heffect := s.effect e
  generalize s.step P e = s' at heffect h ⊢
  cases heffect with
  | launched signOut =>
    rw [App.launch, Session.user_logout] at h
    cases h
  | signUpTapped screen n flow i signOut =>
    left
    rw [← Session.user_logout s.session signOut]
    exact h
  | knownError | signedUp =>
    rw [App.session_complete] at h
    exact Or.inl h
  | loaded i call r user' hread hr =>
    rw [App.session_complete] at h
    obtain rfl : user' = user := Option.some.inj h
    have hcall : (s.stores user').calls[i]? = some call := hread.1
    exact Or.inr ⟨_, App.mem_calls_complete hcall (.loaded user') (.ok true), rfl⟩
  | _ => exact Or.inl h

/-- The stored user, and every call's history, have their origin. -/
structure UserInv (s : App) : Prop where
  consistent : ∀ call ∈ s.calls, call.Consistent
  user : ∀ user, s.session.user = some user → ∃ call ∈ s.calls, call.status = .loaded user

theorem status_lose {c : Call} {user : User} (h : c.status = .loaded user) :
    c.lose.status = .loaded user := by
  simp [Call.lose, h]

theorem UserInv.step (h : UserInv s) (e : Event P) : UserInv (s.step P e) := by
  refine ⟨consistent_step h.consistent e, fun user huser => ?_⟩
  rcases App.user_step e huser with hold | hnew
  · refine (s.calls_step e).exists (fun c => status_lose) ?_ (h.user user hold)
    intro owned c c' ha hc
    have hnone := ha.reports_eq_nil
    rw [hc] at hnone
    cases hnone
  · exact hnew

/-- What an event does to the user in `UserInformation.shared`: a new
process starts without one, the read of a sign-in may store the one it has
loaded, and every other event, the log-out of a sign-up tap included, leaves
it in place. -/
def KeepsUser (s : App) : Event P → Prop
  | .launch signOut => (s.step P (.launch signOut)).session.user = none
  | .readAnswers i r =>
      (s.step P (.readAnswers i r)).session.user = s.session.user ∨
        ∃ call email password, s.AwaitsRead i call ∧ call.request = .signIn email password ∧
          r.user?.isSome = true ∧ (s.step P (.readAnswers i r)).session.user = r.user?
  | e => (s.step P e).session.user = s.session.user

theorem keepsUser_of_eq {e : Event P} (hlaunch : ∀ signOut, e ≠ .launch signOut)
    (h : (s.step P e).session.user = s.session.user) : KeepsUser s e := by
  cases e with
  | launch signOut => exact absurd rfl (hlaunch signOut)
  | readAnswers i r => exact Or.inl h
  | _ => exact h

theorem UserInv.keepsUser (h : UserInv s) (e : Event P) : KeepsUser s e := by
  have heffect := s.effect e
  generalize hs' : s.step P e = s' at heffect
  cases heffect with
  | ignored e huser | uncovered e huser =>
    refine keepsUser_of_eq ?_ (congrArg (·.session.user) hs')
    rintro signOut rfl
    cases huser
  | launched signOut => exact Session.user_logout _ signOut
  | signUpTapped screen n flow i signOut =>
    refine keepsUser_of_eq (by simp) ?_
    rw [hs']
    exact Session.user_logout s.session signOut
  | knownError | signedUp =>
    refine keepsUser_of_eq (by simp) ?_
    rw [hs', App.session_complete]
    rfl
  | loaded i call r user hread hr =>
    obtain ⟨hcall, uid, hstatus⟩ := hread
    have hfits := (h.consistent call (List.mem_of_getElem? hcall)).fits
    rw [hstatus] at hfits
    obtain ⟨email, password, hrequest⟩ := hfits
    refine Or.inr ⟨call, email, password, ⟨hcall, uid, hstatus⟩, hrequest, by rw [hr]; rfl, ?_⟩
    rw [hs', App.session_complete, hr]
    rfl
  | _ => exact keepsUser_of_eq (by simp) (congrArg (·.session.user) hs')

/-- **The stored user was loaded by a sign-in**, in every state of every
run; and at every step a new process starts without one, and nothing but
such a read changes it, a log-out included. -/
theorem storedUser_throughout (P : Platform) (persisted : Option Uid) (records : Uid → FBValue)
    (accounts : List Uid) (signOut : SignOut) (es : List (Event P)) :
    Throughout (App.step P)
        (fun s => ∀ user, s.session.user = some user → ∃ call ∈ s.calls,
          call.status = .loaded user ∧ ∃ email password, call.request = .signIn email password)
        (App.launched persisted records accounts signOut) es ∧
      EachStep (App.step P) KeepsUser (App.launched persisted records accounts signOut) es := by
  have hstart : UserInv (App.launched persisted records accounts signOut) := by
    refine ⟨by simp [App.launched, App.launch], fun user huser => ?_⟩
    rw [App.launched, App.launch, Session.user_logout] at huser
    cases huser
  constructor
  · refine throughout_of_invariant (I := UserInv) ?_ (fun e _ _ h => h.step e) hstart
    intro s h user huser
    obtain ⟨call, hcall, hstatus⟩ := h.user user huser
    have hfits := (h.consistent call hcall).fits
    rw [hstatus] at hfits
    exact ⟨call, hcall, hstatus, hfits⟩
  · exact eachStep_of_invariant (I := UserInv) (fun _ e h => h.step e)
      (fun _ e h => h.keepsUser e) hstart es

/-! ## What the sign-in page presents -/

/-- The subject event that makes the page present this. -/
def Presented.cause : Presented → Option SubjectEvent
  | .alert message => some (.authFailure message)
  | .mainTabbar => some .authSuccess
  | _ => none

theorem cause_presentedFlow (n : Nat) (o : Option SignUpFlow) :
    (presentedFlow n o).cause = none := by
  cases o <;> rfl

theorem SignInScreen.n_hear (screen : SignInScreen) (e : SubjectEvent) :
    (screen.hear e).n = screen.n := by
  unfold SignInScreen.hear
  split <;> rfl

theorem SignInScreen.cause_hear (screen : SignInScreen) (e : SubjectEvent) :
    (screen.hear e).presented.cause = screen.presented.cause ∨
      (screen.hear e).presented.cause = some e := by
  unfold SignInScreen.hear
  split
  · exact Or.inr rfl
  · exact Or.inr rfl
  · exact Or.inl rfl

/-- A subject that fires makes only the page of its own view model present
something for it. -/
theorem Root.cause_deliver {e ev : SubjectEvent} {id : VmId} {root : Root}
    {screen' : SignInScreen} (h : root.deliver e id = .signIn screen')
    (hcause : screen'.presented.cause = some ev) :
    (∃ screen, root = .signIn screen ∧ screen.n = screen'.n ∧
        screen.presented.cause = some ev) ∨
      (id = .signIn screen'.n ∧ root.owns id = true ∧ ev = e) := by
  cases root with
  | mainTabbar => cases id <;> cases h
  | signIn screen =>
    cases id with
    | signIn n =>
      simp only [Root.deliver] at h
      split at h
      · rename_i hn
        obtain rfl := Root.signIn.inj h
        rw [SignInScreen.n_hear]
        rcases screen.cause_hear e with hold | hnew
        · exact Or.inl ⟨screen, rfl, rfl, hold.symm.trans hcause⟩
        · exact Or.inr ⟨by rw [hn], by simp [Root.owns, hn],
            Option.some.inj (hcause.symm.trans hnew)⟩
      · obtain rfl := Root.signIn.inj h
        exact Or.inl ⟨screen, rfl, rfl, hcause⟩
    | signUp n =>
      simp only [Root.deliver] at h
      split at h
      · split at h
        · obtain rfl := Root.signIn.inj h
          rw [cause_presentedFlow] at hcause
          cases hcause
        · obtain rfl := Root.signIn.inj h
          exact Or.inl ⟨screen, rfl, rfl, hcause⟩
      · obtain rfl := Root.signIn.inj h
        exact Or.inl ⟨screen, rfl, rfl, hcause⟩

/-- The sign-in page numbered `n` presents what `ev` makes it present. -/
def App.Presents (s : App) (n : Nat) (ev : SubjectEvent) : Prop :=
  ∃ screen, s.window = some (.signIn screen) ∧ screen.n = n ∧
    screen.presented.cause = some ev

/-- A call of the sign-in page numbered `n` has fired `ev`. -/
def Call.FiredOn (n : Nat) (ev : SubjectEvent) (c : Call) : Prop :=
  c.owner = .signIn n ∧ c.fired = [ev]

theorem App.presents_complete {i : Nat} {call : Call} (hcall : s.calls[i]? = some call)
    (hfired : call.fired = []) {status : Status} {result : Except AuthError Bool} {n : Nat}
    {ev : SubjectEvent} (h : ((s.setStatus i status).complete i result).Presents n ev) :
    s.Presents n ev ∨
      ∃ c ∈ ((s.setStatus i status).complete i result).calls, c.FiredOn n ev := by
  obtain ⟨screen', hwindow, rfl, hcause⟩ := h
  have hmap : ((s.setStatus i status).complete i result).window =
      s.window.map (Root.deliver (authCompletion result) call.owner) := by
    unfold App.complete
    rw [App.getElem?_setStatus hcall]
    rfl
  rw [hmap, Option.map_eq_some_iff] at hwindow
  obtain ⟨root, hroot, hdeliver⟩ := hwindow
  rcases Root.cause_deliver hdeliver hcause with ⟨screen, rfl, hn, hold⟩ | ⟨hid, howns, rfl⟩
  · exact Or.inl ⟨screen, hroot, hn, hold⟩
  · have howner : s.owns call.owner = true := by simp [App.owns, hroot, howns]
    refine Or.inr ⟨_, App.mem_calls_complete hcall status result, hid, ?_⟩
    simp [Call.completed, hfired, howner]

/-- What the page presents it presented before, or a call has just fired
it. -/
theorem App.presents_step (hcalls : ∀ call ∈ s.calls, call.Consistent) (e : Event P) {n : Nat}
    {ev : SubjectEvent} (h : (s.step P e).Presents n ev) :
    s.Presents n ev ∨ ∃ c ∈ (s.step P e).calls, c.FiredOn n ev := by
  have hfired : ∀ {i : Nat} {call : Call}, s.calls[i]? = some call →
      call.status.reports = [] → call.fired = [] := fun hcall =>
    (hcalls _ (List.mem_of_getElem? hcall)).fired_eq_nil
  have heffect := s.effect e
  generalize s.step P e = s' at heffect h ⊢
  cases heffect with
  | launched | rootMain =>
    obtain ⟨screen', hwindow, -, -⟩ := h
    cases hwindow
  | rootSignIn | signUpOpened =>
    obtain ⟨screen', hwindow, -, hcause⟩ := h
    cases hwindow
    cases hcause
  | uncovered e huser screen screen' hscreen hpresented =>
    obtain ⟨screen'', hwindow, -, hcause⟩ := h
    cases hwindow
    rw [hpresented] at hcause
    cases hcause
  | flowStepped | signUpTapped =>
    obtain ⟨screen', hwindow, -, hcause⟩ := h
    cases hwindow
    rw [cause_presentedFlow] at hcause
    cases hcause
  | knownError i call code authError haccepts =>
    exact App.presents_complete haccepts.1
      (hfired haccepts.1 (by simp [haccepts.2.1, Status.reports])) h
  | signedUp i call email password user uid haccepts =>
    have hold := App.presents_complete (s := s.signedUp uid user) haccepts.1
      (hfired haccepts.1 (by simp [haccepts.2.1, Status.reports])) h
    exact hold
  | loaded i call r user hread =>
    obtain ⟨hcall, uid, hstatus⟩ := hread
    have hold := App.presents_complete (s := s.stores user) hcall
      (hfired hcall (by simp [hstatus, Status.reports])) h
    exact hold
  | _ => exact Or.inl h

/-- Faithful taps, consistent calls, and a page that presents only what one
of its own calls has fired. -/
structure PresentsInv (s : App) : Prop where
  taps : TapsInv s
  consistent : ∀ call ∈ s.calls, call.Consistent
  presents : ∀ n ev, s.Presents n ev → ∃ call ∈ s.calls, call.FiredOn n ev

theorem Call.FiredOn.lose {n : Nat} {ev : SubjectEvent} {c : Call} (h : c.FiredOn n ev) :
    c.lose.FiredOn n ev := by
  unfold Call.lose
  split <;> exact h

theorem PresentsInv.step (h : PresentsInv s) (e : Event P) : PresentsInv (s.step P e) := by
  refine ⟨h.taps.step e, consistent_step h.consistent e, fun n ev hpresents => ?_⟩
  rcases App.presents_step h.consistent e hpresents with hold | hnew
  · obtain ⟨call, hcall, hfiredOn⟩ := h.presents n ev hold
    -- a call that has fired is never answered again
    have hkept := (s.calls_step e).exists (F := fun c => c.Consistent ∧ c.FiredOn n ev)
      (fun c hc => ⟨hc.1.lose, hc.2.lose⟩)
      (fun owned c c' ha hc => by simpa [hc.1.fired_eq_nil ha.reports_eq_nil] using hc.2.2)
      ⟨call, hcall, h.consistent call hcall, hfiredOn⟩
    obtain ⟨call', hcall', -, hfiredOn'⟩ := hkept
    exact ⟨call', hcall', hfiredOn'⟩
  · exact hnew

/-- What a call that has fired on a sign-in page has ended with. -/
theorem Call.Consistent.outcome {c : Call} (h : c.Consistent) (hfaithful : c.toTap.Faithful)
    {n : Nat} {ev : SubjectEvent} (hfired : c.FiredOn n ev) :
    (∃ code type message, c.status = .failed code ∧
        branchError code = some (.error type message) ∧ ev = .authFailure message) ∨
      (∃ user, c.status = .loaded user ∧ ev = .authSuccess) := by
  obtain ⟨howner, hevents⟩ := hfired
  have hreports : c.status.reports.map authCompletion = [ev] := by
    rcases h.fired with hnone | hsome
    · rw [hnone] at hevents
      cases hevents
    · rw [← h.reports, ← hsome, hevents]
  have hfits := h.fits
  cases hstatus : c.status with
  | failed code =>
    rw [hstatus, Status.reports] at hreports
    cases hcode : branchError code with
    | none =>
      rw [hcode] at hreports
      cases hreports
    | some authError =>
      rw [hcode] at hreports
      obtain ⟨type, message⟩ := authError
      exact Or.inl ⟨code, type, message, rfl, hcode, (List.cons.inj hreports).1.symm⟩
  | created uid =>
    -- a sign-in page makes no sign-up call
    rw [hstatus] at hfits
    obtain ⟨email, password, user, hrequest⟩ := hfits
    obtain ⟨⟨owner, origin, request⟩, status, reports, fired⟩ := c
    cases hfaithful with
    | signIn => cases hrequest
    | signUp => cases howner
  | loaded user =>
    rw [hstatus] at hreports
    exact Or.inr ⟨user, rfl, (List.cons.inj hreports).1.symm⟩
  | _ =>
    rw [hstatus] at hreports
    cases hreports

/-- **An alert or the tab bar over the sign-in page is the outcome of one
of its own calls.** The alert has the message of the error a call ended
with, and the tab bar is there because a sign-in has loaded its user; no
sign-up, and no call of another page, puts either there. -/
theorem presented_throughout (P : Platform) (persisted : Option Uid) (records : Uid → FBValue)
    (accounts : List Uid) (signOut : SignOut) (es : List (Event P)) :
    Throughout (App.step P)
      (fun s => ∀ screen, s.window = some (.signIn screen) →
        (∀ message, screen.presented = .alert message → ∃ call ∈ s.calls,
          call.owner = .signIn screen.n ∧ ∃ code type, call.status = .failed code ∧
            branchError code = some (.error type message)) ∧
        (screen.presented = .mainTabbar → ∃ call ∈ s.calls,
          call.owner = .signIn screen.n ∧ ∃ user, call.status = .loaded user))
      (App.launched persisted records accounts signOut) es := by
  refine throughout_of_invariant (I := PresentsInv) ?_ ?_ ?_
  · intro s h screen hwindow
    have hcause : ∀ ev, screen.presented.cause = some ev → ∃ call ∈ s.calls,
        call.owner = .signIn screen.n ∧
          ((∃ code type message, call.status = .failed code ∧
              branchError code = some (.error type message) ∧ ev = .authFailure message) ∨
            (∃ user, call.status = .loaded user ∧ ev = .authSuccess)) := by
      intro ev hev
      obtain ⟨call, hcall, hfired⟩ := h.presents screen.n ev ⟨screen, hwindow, rfl, hev⟩
      exact ⟨call, hcall, hfired.1,
        (h.consistent call hcall).outcome (h.taps.faithful hcall) hfired⟩
    constructor
    · intro message hpresented
      obtain ⟨call, hcall, howner, houtcome⟩ :=
        hcause (.authFailure message) (by rw [hpresented]; rfl)
      rcases houtcome with ⟨code, type, message', hstatus, hcode, hev⟩ | ⟨user, -, hev⟩
      · cases hev
        exact ⟨call, hcall, howner, code, type, hstatus, hcode⟩
      · cases hev
    · intro hpresented
      obtain ⟨call, hcall, howner, houtcome⟩ := hcause .authSuccess (by rw [hpresented]; rfl)
      rcases houtcome with ⟨code, type, message, -, -, hev⟩ | ⟨user, hstatus, -⟩
      · cases hev
      · exact ⟨call, hcall, howner, user, hstatus⟩
  · intro e _ s h
    exact h.step e
  · refine ⟨.launched persisted records accounts signOut, by simp [App.launched, App.launch], ?_⟩
    rintro n ev ⟨screen, hwindow, -, -⟩
    cases hwindow

/-! ## Credentials -/

/-- The form of the sign-in page, if that is the root. -/
def Root.form? : Root → Option SignInForm
  | .mainTabbar => none
  | .signIn screen => some screen.form

def App.form? (s : App) : Option SignInForm := s.window.bind Root.form?

/-- What became of the form. -/
inductive FormMove (o : Option SignInForm) : Option SignInForm → Prop where
  | stays : FormMove o o
  | closes : FormMove o none
  | opens : FormMove o (some .viewDidLoad)
  | types (e : TextEvent) : FormMove o (o.map (·.deliver e))

theorem App.form?_of_window {screen : SignInScreen} (h : s.window = some (.signIn screen)) :
    s.form? = some screen.form := by
  simp [App.form?, h, Root.form?]

theorem SignInScreen.form_hear (screen : SignInScreen) (e : SubjectEvent) :
    (screen.hear e).form = screen.form := by
  unfold SignInScreen.hear
  split <;> rfl

theorem Root.form?_deliver (e : SubjectEvent) (id : VmId) (root : Root) :
    (root.deliver e id).form? = root.form? := by
  cases root with
  | mainTabbar => cases id <;> rfl
  | signIn screen =>
    cases id with
    | signIn n =>
      simp only [Root.deliver]
      split
      · simp [Root.form?, SignInScreen.form_hear]
      · rfl
    | signUp n =>
      simp only [Root.deliver]
      split
      · split <;> rfl
      · rfl

theorem App.form?_complete (s : App) (i : Nat) (result : Except AuthError Bool) :
    (s.complete i result).form? = s.form? := by
  unfold App.complete
  split
  · rfl
  · simp only [App.form?]
    cases s.window with
    | none => rfl
    | some root => exact Root.form?_deliver _ _ root

/-- An input of the uncovered page happens there or not at all. -/
theorem App.onSignIn_rule {Q : App → Prop} {input : SignInScreen → App} (hs : Q s)
    (h : ∀ screen, s.window = some (.signIn screen) → Q (input screen)) : Q (s.onSignIn input) := by
  unfold App.onSignIn
  split
  · rename_i screen hwindow
    split
    · exact h screen hwindow
    · exact hs
  · exact hs

theorem App.form?_callback {e : Event P} (huser : e.byUser = false) (hlaunch : ∀ o, e ≠ .launch o)
    (hscene : e ≠ .sceneConnects) : (s.step P e).form? = s.form? := by
  have heffect := s.effect e
  generalize s.step P e = s' at heffect ⊢
  cases heffect with
  | ignored e h | uncovered e h => simp [h] at huser
  | launched signOut => exact absurd rfl (hlaunch signOut)
  | rootMain | rootSignIn => exact absurd rfl hscene
  | signInTapped | signUpOpened | flowStepped | signUpTapped => cases huser
  | knownError | signedUp | loaded =>
    rw [App.form?_complete]
    rfl
  | _ => rfl

/-- The form of the page changes only by the texts typed into it. -/
theorem App.form?_step (s : App) (e : Event P) : FormMove s.form? (s.step P e).form? := by
  cases e with
  | launch => exact .closes
  | sceneConnects =>
    simp only [App.step, App.sceneConnects]
    split
    · exact .closes
    · exact .opens
  | emailText text =>
    refine App.onSignIn_rule (Q := fun s' => FormMove s.form? s'.form?) .stays ?_
    intro screen hwindow
    have hmove : FormMove s.form? (s.form?.map (·.deliver (.email text))) := .types _
    rw [App.form?_of_window hwindow] at hmove ⊢
    exact hmove
  | passwordText text =>
    refine App.onSignIn_rule (Q := fun s' => FormMove s.form? s'.form?) .stays ?_
    intro screen hwindow
    have hmove : FormMove s.form? (s.form?.map (·.deliver (.password text))) := .types _
    rw [App.form?_of_window hwindow] at hmove ⊢
    exact hmove
  | tapSignIn =>
    refine App.onSignIn_rule (Q := fun s' => FormMove s.form? s'.form?) .stays ?_
    intro screen hwindow
    split <;> exact .stays
  | tapSignUp =>
    refine App.onSignIn_rule (Q := fun s' => FormMove s.form? s'.form?) .stays ?_
    intro screen hwindow
    rw [App.form?_of_window hwindow]
    exact .stays
  | dismissAlert =>
    simp only [App.step, App.dismissAlert]
    split
    · rename_i screen hwindow
      rw [App.form?_of_window hwindow]
      split
      · exact .stays
      · rw [App.form?_of_window hwindow]
        exact .stays
    · exact .stays
  | signUpInput i signOut =>
    simp only [App.step, App.signUpInput]
    split
    · rename_i screen hwindow
      rw [App.form?_of_window hwindow]
      split
      · split <;> exact .stays
      · rw [App.form?_of_window hwindow]
        exact .stays
    · exact .stays
  | authAnswers i r | readAnswers i r | writeSettles i accepted =>
    rw [App.form?_callback rfl (by simp) (by simp)]
    exact .stays

/-- A sign-in call carries an email and a password the validators accept. -/
def Tap.Validated (t : Tap) : Prop :=
  ∀ email password, t.request = .signIn email password →
    validateEmail email = true ∧ validatePassword password = true

/-- The page is settled, and so every sign-in tap so far was validated. -/
structure CredentialsInv (s : App) : Prop where
  form : ∀ f, s.form? = some f → ∃ vm, f = .settled vm
  taps : ∀ t ∈ s.taps, t.Validated

theorem settled_viewDidLoad : ∃ vm, SignInForm.viewDidLoad = .settled vm := by
  rw [viewDidLoad_eq_run, SignInForm.subscribed_eq_settled, SignInForm.run_deliver]
  exact ⟨_, rfl⟩

theorem FormMove.settled {o o' : Option SignInForm} (hmove : FormMove o o')
    (h : ∀ f, o = some f → ∃ vm, f = .settled vm) : ∀ f, o' = some f → ∃ vm, f = .settled vm := by
  intro f hf
  cases hmove with
  | stays => exact h f hf
  | closes => cases hf
  | opens =>
    obtain rfl := Option.some.inj hf
    exact settled_viewDidLoad
  | types e =>
    obtain ⟨f', hf', rfl⟩ := Option.map_eq_some_iff.mp hf
    obtain ⟨vm, rfl⟩ := h f' hf'
    exact ⟨e.store vm, SignInForm.deliver_settled vm e⟩

/-- An enabled button of a settled page sends validated texts. -/
theorem validated_tapSignIn {screen : SignInScreen} (h : ∃ vm, screen.form = .settled vm)
    (henabled : screen.form.signInButtonEnabled = true) :
    Tap.Validated ⟨.signIn screen.n, .signIn screen.form.viewModel, screen.form.request⟩ := by
  intro email password hrequest
  obtain ⟨vm, hvm⟩ := h
  have htracks : SignInTracks screen.form := hvm ▸ signInTracks_settled vm
  cases hrequest
  exact htracks.button.mp henabled

theorem validated_start {tap : Tap} (htap : tap.Validated) (h : ∀ t ∈ s.taps, t.Validated) :
    ∀ t ∈ (s.start tap).taps, t.Validated := by
  intro t ht
  rw [App.taps_start, List.mem_append, List.mem_singleton] at ht
  rcases ht with ht | rfl
  · exact h t ht
  · exact htap

theorem CredentialsInv.tapSignIn (h : CredentialsInv s) : ∀ t ∈ s.tapSignIn.taps, t.Validated := by
  refine App.onSignIn_rule (Q := fun s' => ∀ t ∈ s'.taps, t.Validated) h.taps ?_
  intro screen hwindow
  split
  · rename_i henabled
    exact validated_start
      (validated_tapSignIn (h.form screen.form (App.form?_of_window hwindow)) henabled) h.taps
  · exact h.taps

theorem request_ne_signIn {f : SignUpFlow} {i : SignUpInput P} {request : Request}
    (h : f.request i = some request) (email password : String) :
    request ≠ .signIn email password := by
  rintro rfl
  cases i with
  | signUp =>
    simp only [SignUpFlow.request] at h
    split at h <;> cases h
  | _ => cases h

theorem CredentialsInv.step (h : CredentialsInv s) (e : Event P) :
    CredentialsInv (s.step P e) := by
  refine ⟨(s.form?_step e).settled h.form, ?_⟩
  by_cases htap : e = .tapSignIn
  · subst htap
    exact h.tapSignIn
  · have heffect := s.effect e
    generalize s.step P e = s' at heffect ⊢
    cases heffect with
    | signInTapped => exact absurd rfl htap
    | signUpTapped screen n flow i signOut request hwindow hflow hrequest =>
      refine validated_start ?_ h.taps
      intro email password hsignIn
      exact absurd hsignIn (request_ne_signIn hrequest email password)
    | launched | unknownError | knownError | signedIn | signedUp | notLoaded | loaded =>
      simpa using h.taps
    | _ => exact h.taps

/-- **A sign-in call carries validated credentials**, and the page it is
made from always shows what its two texts amount to, whatever covers or
uncovers it and whatever is answered meanwhile. -/
theorem credentials_throughout (P : Platform) (persisted : Option Uid) (records : Uid → FBValue)
    (accounts : List Uid) (signOut : SignOut) (es : List (Event P)) :
    Throughout (App.step P)
      (fun s => (∀ screen, s.window = some (.signIn screen) → SignInTracks screen.form) ∧
        ∀ call ∈ s.calls, ∀ email password, call.request = .signIn email password →
          validateEmail email = true ∧ validatePassword password = true)
      (App.launched persisted records accounts signOut) es := by
  refine throughout_of_invariant (I := CredentialsInv) ?_ ?_ ?_
  · intro s h
    constructor
    · intro screen hwindow
      obtain ⟨vm, hvm⟩ := h.form screen.form (App.form?_of_window hwindow)
      exact hvm ▸ signInTracks_settled vm
    · intro call hcall
      exact h.taps call.toTap (List.mem_map_of_mem hcall)
  · intro e _ s h
    exact h.step e
  · constructor
    · simp [App.launched, App.launch, App.form?]
    · simp [App.launched, App.launch, App.taps]

end BetweenUS.Application
