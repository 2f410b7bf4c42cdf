/-
BetweenUS.Application.RequestTheorems — what reaches Firebase Auth.

Nothing is checked when the sign-up button is tapped: `signUp()` passes
on whatever the view model holds. That only validated data goes out rests
on two buttons on two screens. The argument has three parts.

* The sign-up screen inside the app is the machine of `SignUpFlow`:
  whatever the app does, the screen makes a move of `SignUpFlow.next`,
  starts afresh, is closed, or stays as it is (`App.flow?_step`). So an
  invariant of that machine is an invariant of the app.
* A call keeps the tap it came from: answers change its status and its
  history, never its arguments (`taps_setStatus`, `taps_complete`).
* Every tap is faithful: it passes on the fields of its own view model as
  they stood, and a sign-up tap is made over a validated one.
-/
import BetweenUS.Application.StepTheorems
import BetweenUS.Rogin.SignUpFlowTheorems

namespace BetweenUS.Application

open BetweenUS.Model BetweenUS.Manager BetweenUS.Rogin BetweenUS.Runs

/-! ## The sign-up screen inside the app -/

/-- The sign-up screen, if one is up. -/
def Presented.flow? : Presented → Option SignUpFlow
  | .signUp _ flow => some flow
  | _ => none

def Root.flow? : Root → Option SignUpFlow
  | .mainTabbar => none
  | .signIn screen => screen.presented.flow?

def App.flow? (s : App) : Option SignUpFlow := s.window.bind Root.flow?

@[simp] theorem flow?_signUp (n : Nat) (flow : SignUpFlow) :
    (Presented.signUp n flow).flow? = some flow := rfl

@[simp] theorem flow?_presentedFlow (n : Nat) (o : Option SignUpFlow) :
    (presentedFlow n o).flow? = o := by
  cases o <;> rfl

theorem App.flow?_of_window {s : App} {screen : SignInScreen}
    (h : s.window = some (.signIn screen)) : s.flow? = screen.presented.flow? := by
  simp [App.flow?, h, Root.flow?]

@[simp] theorem App.flow?_setScreen (s : App) (screen : SignInScreen) :
    (s.setScreen screen).flow? = screen.presented.flow? := rfl

theorem SignInScreen.flow?_hear (screen : SignInScreen) (e : SubjectEvent) :
    (screen.hear e).presented.flow? = screen.presented.flow? := by
  unfold SignInScreen.hear
  split
  · rename_i h
    simp [h, Presented.flow?]
  · rename_i h
    simp [h, Presented.flow?]
  · rfl

/-- A subject that fires reaches the sign-up screen or passes it by. -/
theorem Root.flow?_deliver (e : SubjectEvent) (id : VmId) (root : Root) :
    (root.deliver e id).flow? = root.flow? ∨
      (root.deliver e id).flow? = root.flow?.bind (·.hear e) := by
  cases root with
  | mainTabbar => cases id <;> exact Or.inl rfl
  | signIn screen =>
    cases id with
    | signIn n =>
      left
      simp only [Root.deliver]
      split
      · exact screen.flow?_hear e
      · rfl
    | signUp n =>
      simp only [Root.deliver]
      split
      · rename_i n' flow hflow
        split
        · right
          simp [Root.flow?, hflow]
        · exact Or.inl rfl
      · exact Or.inl rfl

/-- What became of the sign-up screen. -/
inductive FlowMove (P : Platform) (o : Option SignUpFlow) : Option SignUpFlow → Prop where
  | stays : FlowMove P o o
  | closes : FlowMove P o none
  | starts : FlowMove P o (some (SignUpFlow.start P))
  | moves (e : SignUpEvent P) : FlowMove P o (SignUpFlow.next P o e)

theorem FlowMove.complete (P : Platform) (s : App) (i : Nat) (result : Except AuthError Bool) :
    FlowMove P s.flow? (s.complete i result).flow? := by
  unfold App.complete
  cases hcall : s.calls[i]? with
  | none => exact .stays
  | some call =>
    cases hwindow : s.window with
    | none =>
      simp only [App.flow?, hwindow, Option.map_none, Option.bind_none]
      exact .stays
    | some root =>
      simp only [App.flow?, hwindow, Option.map_some, Option.bind_some]
      rcases Root.flow?_deliver (authCompletion result) call.owner root with h | h
      · rw [h]
        exact .stays
      · rw [h]
        cases root.flow? with
        | none => exact .closes
        | some flow => exact .moves (.subject (authCompletion result))

/-- The app moves its sign-up screen only as that screen moves itself. -/
theorem App.flow?_step {P : Platform} (s : App) (e : Event P) :
    FlowMove P s.flow? (s.step P e).flow? := by
  have heffect := s.effect e
  generalize s.step P e = s' at heffect ⊢
  cases heffect with
  | launched => exact .closes
  | rootMain => exact .closes
  | rootSignIn => exact .closes
  | uncovered e huser screen screen' hwindow h =>
    rw [flow?_setScreen, h]
    exact .closes
  | signUpOpened screen hwindow => exact .starts
  | flowStepped screen n flow i signOut hwindow hflow
  | signUpTapped screen n flow i signOut request hwindow hflow =>
    have hnext : FlowMove P s.flow? (SignUpFlow.next P s.flow? (.input i)) := .moves _
    rw [App.flow?_of_window hwindow, hflow] at hnext ⊢
    simpa [App.start, App.flow?, App.setScreen, Root.flow?, SignUpFlow.next] using hnext
  | knownError i call code authError => exact .complete P (s.setStatus i _) i _
  | signedUp i call email password user uid =>
    exact .complete P ((s.signedUp uid user).setStatus i _) i _
  | loaded i call r user => exact .complete P ((s.stores user).setStatus i _) i _
  | _ => exact .stays

/-- An invariant of the screen's machine is one of the screen in the app. -/
theorem App.flow?_invariant {P : Platform} {W : SignUpFlow → Prop}
    (hstart : W (SignUpFlow.start P))
    (hnext : ∀ o (e : SignUpEvent P), (∀ f, o = some f → W f) →
      ∀ f, SignUpFlow.next P o e = some f → W f)
    {s : App} (h : ∀ f, s.flow? = some f → W f) (e : Event P) :
    ∀ f, (s.step P e).flow? = some f → W f := by
  have hmove := s.flow?_step e
  generalize (s.step P e).flow? = o' at hmove ⊢
  cases hmove with
  | stays => exact h
  | closes => simp
  | starts => simpa using hstart
  | moves e' => exact hnext _ e' h

/-! ## Calls keep their taps -/

def App.taps (s : App) : List Tap := s.calls.map Call.toTap

theorem map_toTap_modify (calls : List Call) (i : Nat) {f : Call → Call}
    (hf : ∀ c, (f c).toTap = c.toTap) :
    (calls.modify i f).map Call.toTap = calls.map Call.toTap := by
  apply List.ext_getElem?
  intro j
  rw [List.getElem?_map, List.getElem?_map, List.getElem?_modify]
  cases calls[j]? with
  | none => rfl
  | some c =>
    by_cases hij : i = j
    · simp [hij, hf]
    · simp [hij]

@[simp] theorem App.taps_signedIn (s : App) (uid : Uid) : (s.signedIn uid).taps = s.taps := rfl

@[simp] theorem App.taps_signedUp (s : App) (uid : Uid) (user : User) :
    (s.signedUp uid user).taps = s.taps := rfl

@[simp] theorem App.taps_stores (s : App) (user : User) : (s.stores user).taps = s.taps := rfl

@[simp] theorem App.taps_setStatus (s : App) (i : Nat) (status : Status) :
    (s.setStatus i status).taps = s.taps :=
  map_toTap_modify s.calls i fun _ => rfl

@[simp] theorem App.taps_complete (s : App) (i : Nat) (result : Except AuthError Bool) :
    (s.complete i result).taps = s.taps := by
  unfold App.complete
  split
  · rfl
  · exact map_toTap_modify s.calls i fun _ => rfl

@[simp] theorem App.taps_start (s : App) (tap : Tap) : (s.start tap).taps = s.taps ++ [tap] := by
  simp [App.taps, App.start]

theorem Call.toTap_lose (c : Call) : c.lose.toTap = c.toTap := by
  unfold Call.lose
  split <;> rfl

@[simp] theorem App.taps_launch (s : App) (signOut : SignOut) :
    (s.launch signOut).taps = s.taps := by
  simp [App.taps, App.launch, Function.comp_def, Call.toTap_lose]

/-! ## Every tap is faithful -/

/-- A page's button is enabled only over a complete profile. -/
abbrev OnlyComplete : Bool → Bool → Prop := fun enabled complete =>
  enabled = true → complete = true

/-- What a sign-up sends has passed both validators and is complete. -/
def Validated (vm : SignUpViewModel) : Prop :=
  validateEmail vm.email = true ∧ validatePassword vm.password = true ∧
    vm.name ≠ "" ∧ vm.nickName ≠ "" ∧ vm.birthDay ≠ ""

/-- The tap passes on the fields of its own view model. -/
inductive Tap.Faithful : Tap → Prop where
  | signIn (n : Nat) (vm : LoginViewModel) :
      Faithful ⟨.signIn n, .signIn vm, .signIn vm.email vm.password⟩
  | signUp (n : Nat) (vm : SignUpViewModel) (h : Validated vm) :
      Faithful ⟨.signUp n, .signUp vm, .signUp vm.email vm.password vm.signUpUser⟩

/-- A sign-up button that can be tapped stands over a validated view
model. -/
theorem validated_of_request {P : Platform} {f : SignUpFlow}
    (h : SignUpFlow.FlowInv OnlyComplete f) {i : SignUpInput P} {request : Request}
    (hrequest : f.request i = some request) :
    Validated f.viewModel ∧
      request = .signUp f.viewModel.email f.viewModel.password f.viewModel.signUpUser := by
  cases i with
  | signUp =>
    simp only [SignUpFlow.request] at hrequest
    split at hrequest
    · rename_i hdelivers
      obtain rfl := Option.some.inj hrequest
      simp only [SignUpFlow.delivers, Bool.and_eq_true] at hdelivers
      obtain ⟨_, henabled⟩ := hdelivers
      split at henabled
      · cases henabled
      · rename_i p rest hpages
        have hp := h.pages p (by simp [hpages])
        have hprofile := (SignUpFlow.notEmptyAllTextField_iff _).mp (hp.2 henabled)
        have hlogin := h.validated (by simp [hpages])
        exact ⟨⟨hlogin.1, hlogin.2, hprofile⟩, rfl⟩
    · cases hrequest
  | _ => cases hrequest

/-- The screen keeps its invariant and every tap so far is faithful. -/
structure TapsInv (s : App) : Prop where
  flow : ∀ f, s.flow? = some f → SignUpFlow.FlowInv OnlyComplete f
  taps : ∀ t ∈ s.taps, t.Faithful

theorem TapsInv.faithful {s : App} (h : TapsInv s) {call : Call} (hcall : call ∈ s.calls) :
    call.toTap.Faithful :=
  h.taps call.toTap (List.mem_map_of_mem hcall)

theorem TapsInv.launched (persisted : Option Uid) (records : Uid → FBValue)
    (accounts : List Uid) (signOut : SignOut) :
    TapsInv (App.launched persisted records accounts signOut) :=
  ⟨by simp [App.launched, App.launch, App.flow?], by simp [App.launched, App.taps, App.launch]⟩

theorem TapsInv.step {P : Platform} {s : App} (h : TapsInv s) (e : Event P) :
    TapsInv (s.step P e) := by
  constructor
  · refine App.flow?_invariant (.start P) ?_ h.flow e
    intro o e' ho
    exact .next ho (fun _ => id) (fun _ _ _ _ _ hfalse => Bool.noConfusion hfalse)
  · have heffect := s.effect e
    generalize s.step P e = s' at heffect ⊢
    cases heffect with
    | signInTapped screen hwindow =>
      intro t ht
      rw [App.taps_start, List.mem_append, List.mem_singleton] at ht
      rcases ht with ht | rfl
      · exact h.taps t ht
      · exact .signIn screen.n screen.form.viewModel
    | signUpTapped screen n flow i signOut request hwindow hflow hrequest =>
      intro t ht
      rw [App.taps_start, List.mem_append, List.mem_singleton] at ht
      rcases ht with ht | rfl
      · exact h.taps t ht
      · have hf : s.flow? = some flow := by
          rw [App.flow?_of_window hwindow, hflow]
          rfl
        obtain ⟨hvalidated, rfl⟩ := validated_of_request (h.flow flow hf) hrequest
        exact .signUp n flow.viewModel hvalidated
    | launched | unknownError | knownError | signedIn | signedUp | notLoaded | loaded =>
      simpa using h.taps
    | _ => exact h.taps

/-! ## Only validated data goes out -/

/-- A createUser call carries a valid email and password, and a `User`
with the same email and a complete profile. -/
def ValidRequest : Request → Prop
  | .signIn _ _ => True
  | .signUp email password user =>
      validateEmail email = true ∧ validatePassword password = true ∧
        user.email = email ∧ user.name ≠ "" ∧ user.nickName ≠ "" ∧ user.birthday ≠ ""

theorem Tap.Faithful.validRequest {t : Tap} (h : t.Faithful) : ValidRequest t.request := by
  cases h with
  | signIn n vm => trivial
  | signUp n vm h =>
    obtain ⟨hemail, hpassword, hname, hnickName, hbirthDay⟩ := h
    exact ⟨hemail, hpassword, rfl, hname, hnickName, hbirthDay⟩

theorem TapsInv.validRequests {s : App} (h : TapsInv s) :
    ∀ call ∈ s.calls, ValidRequest call.request := by
  intro call hcall
  exact (h.faithful hcall).validRequest

/-- **Every createUser call of every run carries validated data**, from
whatever state the device was in when the app was launched. -/
theorem validRequests_throughout (P : Platform) (persisted : Option Uid)
    (records : Uid → FBValue) (accounts : List Uid) (signOut : SignOut)
    (es : List (Event P)) :
    Throughout (App.step P) (fun s => ∀ call ∈ s.calls, ValidRequest call.request)
      (App.launched persisted records accounts signOut) es := by
  refine throughout_of_invariant (I := TapsInv) (fun _ h => h.validRequests) ?_ ?_
  · intro e _ s h
    exact h.step e
  · exact .launched persisted records accounts signOut

def uid₁ : Uid := ⟨"uid1", by decide⟩

def uid₂ : Uid := ⟨"uid2", by decide⟩

/-- The app launched on a device with no accounts and no records. -/
def freshDevice : App := App.launched none (fun _ => .null) [] .succeeds

/-- The sign-up screen opened and both of its pages filled in. -/
def openSignUp : List (Event .gregorian) :=
  [.sceneConnects, .tapSignUp,
   .signUpInput (.email "a@b.co") .succeeds, .signUpInput (.password "abcdef1") .succeeds,
   .signUpInput (.checkPassword "abcdef1") .succeeds,
   .signUpInput (.next ⟨2022, 9, 2⟩) .succeeds, .signUpInput (.name "name") .succeeds,
   .signUpInput (.nickName "nick") .succeeds, .signUpInput (.pick ⟨2000, 1, 2⟩) .succeeds,
   .signUpInput .done .succeeds]

theorem validRequests_after_tap :
    (run (App.step .gregorian) freshDevice
        (openSignUp ++ [.signUpInput .signUp .succeeds])).calls.map (·.request)
      = [.signUp "a@b.co" "abcdef1"
          { id := "", email := "a@b.co", name := "name", nickName := "nick",
            birthday := "2000년 01월 02일", content := none }] ∧
      Throughout (App.step .gregorian)
        (fun s => ∀ call ∈ s.calls, ValidRequest call.request) freshDevice
        (openSignUp ++ [.signUpInput .signUp .succeeds]) := by
  refine ⟨by decide, ?_⟩
  exact validRequests_throughout .gregorian none (fun _ => .null) [] .succeeds _

end BetweenUS.Application
