/-
BetweenUS.Rogin.SignUpFormTheorems — the next button against the form it
is meant to describe.

`GateInv f check` is the invariant: the three slots of `combineLatest`
are filled, the first two with verdicts about the CURRENT email and
password, the third with `check`; and the button and the third subject
show just that. Each assignment keeps it. What an assignment does to
`check` is the point: `setCheckPassword` recomputes it, `setPassword`
leaves it alone (`GateInv.setPassword`), so `check` is the comparison
made when `checkPassword` was last assigned, against the password of that
moment.

`FormInput` computes from the assignments alone what has been typed and
what the password was at that moment, and `gateTracks_iff` says when the
old comparison is still the right one.
-/
import BetweenUS.Rogin.SignUpForm
import BetweenUS.Runs.Machine

namespace BetweenUS.Rogin

open BetweenUS.Combine BetweenUS.Runs

namespace SignUpForm

/-! ## What an assignment stores -/

@[simp] theorem viewModel_receive (f : SignUpForm) (latest : Latest₃ Bool Bool Bool) :
    (f.receive latest).viewModel = f.viewModel := by
  unfold receive
  split <;> rfl

/-- The sink does not look at the view model: it makes no difference that
a value is stored after it was emitted. -/
theorem store_receive (f : SignUpForm) (vm : SignUpViewModel) (latest : Latest₃ Bool Bool Bool) :
    { f.receive latest with viewModel := vm } = { f with viewModel := vm }.receive latest := by
  unfold receive
  split <;> rfl

theorem setEmail_eq (f : SignUpForm) (email : String) :
    f.setEmail email
      = { f with viewModel.email := email
                 viewModel.emailValidSubject := validateEmail email }.receive
          { f.latest with first := some (validateEmail email) } := by
  simp only [setEmail, emailEmits, LoginViewModel.emailValid, viewModel_receive, store_receive]

theorem setPassword_eq (f : SignUpForm) (password : String) :
    f.setPassword password
      = { f with viewModel.password := password
                 viewModel.passwordValidSubject := validatePassword password }.receive
          { f.latest with second := some (validatePassword password) } := by
  simp only [setPassword, passwordEmits, LoginViewModel.passwordValid, viewModel_receive,
    store_receive]

theorem checkPasswordValid_eq (P : Platform) (vm : LoginViewModel) (text : String) :
    vm.checkPasswordValid P text
      = ({ vm with checkPasswordValidSubject := P.stringEq vm.password text },
          P.stringEq vm.password text) := by
  unfold LoginViewModel.checkPasswordValid
  cases P.stringEq vm.password text <;> rfl

theorem setCheckPassword_eq (P : Platform) (f : SignUpForm) (text : String) :
    f.setCheckPassword P text
      = { f with viewModel.checkPassword := text
                 viewModel.checkPasswordValidSubject := P.stringEq f.viewModel.password text
        }.receive { f.latest with third := some (P.stringEq f.viewModel.password text) } := by
  simp only [setCheckPassword, checkPasswordEmits, checkPasswordValid_eq, viewModel_receive,
    store_receive]

/-! ## The invariant -/

/-- The button and the third subject, as far as the page remembers. -/
structure GateInv (f : SignUpForm) (check : Bool) : Prop where
  latest : f.latest = ⟨some (validateEmail f.viewModel.email),
    some (validatePassword f.viewModel.password), some check⟩
  button : f.userInfoButtonEnabled
    = (validateEmail f.viewModel.email && validatePassword f.viewModel.password && check)
  subject : f.viewModel.checkPasswordValidSubject = check

/-- Three verdicts that go through `combineLatest` together. -/
theorem gateInv_receive {f : SignUpForm} {check : Bool}
    (hsubject : f.viewModel.checkPasswordValidSubject = check) :
    GateInv (f.receive ⟨some (validateEmail f.viewModel.email),
      some (validatePassword f.viewModel.password), some check⟩) check := by
  constructor <;> simp [receive, hsubject]

theorem GateInv.setEmail {f : SignUpForm} {check : Bool} (h : GateInv f check)
    (email : String) : GateInv (f.setEmail email) check := by
  rw [setEmail_eq, h.latest]
  exact gateInv_receive h.subject

theorem GateInv.setPassword {f : SignUpForm} {check : Bool} (h : GateInv f check)
    (password : String) : GateInv (f.setPassword password) check := by
  rw [setPassword_eq, h.latest]
  exact gateInv_receive h.subject

theorem GateInv.setCheckPassword {f : SignUpForm} {check : Bool} (h : GateInv f check)
    (P : Platform) (text : String) :
    GateInv (f.setCheckPassword P text) (P.stringEq f.viewModel.password text) := by
  rw [setCheckPassword_eq, h.latest]
  exact gateInv_receive rfl

/-- Profile fields do not enter the gate. -/
theorem GateInv.setProfile {f : SignUpForm} {check : Bool} (h : GateInv f check)
    (vm : SignUpViewModel) (hvm : vm.toLoginViewModel = f.viewModel.toLoginViewModel) :
    GateInv { f with viewModel := vm } check := by
  refine ⟨?_, ?_, ?_⟩
  · simp only [hvm]; exact h.latest
  · simp only [hvm]; exact h.button
  · simp only [hvm]; exact h.subject

/-- Subscribing to `isValidSignUp()` establishes the invariant, whatever
the view model held. -/
theorem gateInv_bindingViewModel (P : Platform) (f : SignUpForm) :
    GateInv (f.bindingViewModel P)
      (P.stringEq f.viewModel.password f.viewModel.checkPassword) := by
  refine ⟨?_, ?_, ?_⟩ <;>
    simp [bindingViewModel, emailEmits, passwordEmits, checkPasswordEmits,
      LoginViewModel.emailValid, LoginViewModel.passwordValid, checkPasswordValid_eq,
      receive, Latest₃.empty, Latest₃.output]

/-- Subscribing stores nothing but the verdicts. -/
theorem viewModel_bindingViewModel (P : Platform) (f : SignUpForm) :
    (f.bindingViewModel P).viewModel.email = f.viewModel.email ∧
      (f.bindingViewModel P).viewModel.password = f.viewModel.password ∧
      (f.bindingViewModel P).viewModel.checkPassword = f.viewModel.checkPassword := by
  refine ⟨?_, ?_, ?_⟩ <;>
    simp [bindingViewModel, emailEmits, passwordEmits, checkPasswordEmits,
      LoginViewModel.emailValid, LoginViewModel.passwordValid, checkPasswordValid_eq]

theorem gateInv_viewDidLoad (P : Platform) :
    GateInv (viewDidLoad P) (P.stringEq "" "") := by
  have hpassword (f : SignUpForm) : (f.setPassword "").viewModel.password = "" := by
    rw [setPassword_eq, viewModel_receive]
  have h := (((gateInv_bindingViewModel P {}).setEmail "").setPassword "").setCheckPassword P ""
  rwa [hpassword] at h

end SignUpForm

/-! ## Whole histories -/

/-- What has been typed, and the password at the moment `checkPassword`
was last assigned (or, before that, at the subscription). -/
structure FormInput where
  email : String
  password : String
  checkPassword : String
  passwordWhenChecked : String
  deriving DecidableEq, Repr

def FormInput.assign (i : FormInput) : Assignment → FormInput
  | .email text => { i with email := text }
  | .password text => { i with password := text }
  | .checkPassword text => { i with checkPassword := text, passwordWhenChecked := i.password }

/-- The input history read off the assignments made after a subscription
that found `vm`. -/
def FormInput.of (vm : SignUpViewModel) (as : List Assignment) : FormInput :=
  as.foldl FormInput.assign ⟨vm.email, vm.password, vm.checkPassword, vm.password⟩

/-- The page and the input history belong together. -/
structure Follows (P : Platform) (f : SignUpForm) (i : FormInput) : Prop where
  email : f.viewModel.email = i.email
  password : f.viewModel.password = i.password
  checkPassword : f.viewModel.checkPassword = i.checkPassword
  gate : f.GateInv (P.stringEq i.passwordWhenChecked i.checkPassword)

theorem Follows.assign {P : Platform} {f : SignUpForm} {i : FormInput}
    (h : Follows P f i) (a : Assignment) : Follows P (f.assign P a) (i.assign a) := by
  cases a with
  | email text =>
    refine ⟨?_, ?_, ?_, h.gate.setEmail text⟩ <;>
      simp [SignUpForm.assign, SignUpForm.setEmail_eq, FormInput.assign, h.password,
        h.checkPassword]
  | password text =>
    refine ⟨?_, ?_, ?_, h.gate.setPassword text⟩ <;>
      simp [SignUpForm.assign, SignUpForm.setPassword_eq, FormInput.assign, h.email,
        h.checkPassword]
  | checkPassword text =>
    -- the comparison is made with the password of this moment
    have hgate := h.gate.setCheckPassword P text
    rw [h.password] at hgate
    refine ⟨?_, ?_, ?_, hgate⟩ <;>
      simp [SignUpForm.assign, SignUpForm.setCheckPassword_eq, FormInput.assign, h.email,
        h.password]

theorem follows_run (P : Platform) (f : SignUpForm) (i : FormInput) (h : Follows P f i)
    (as : List Assignment) :
    Follows P (run (SignUpForm.assign P) f as) (as.foldl FormInput.assign i) := by
  induction as generalizing f i with
  | nil => exact h
  | cons a as ih => exact ih _ _ (h.assign a)

/-- The page right after `isValidSignUp()` has been subscribed. -/
def SignUpForm.subscribed (P : Platform) (vm : SignUpViewModel) : SignUpForm :=
  ({ viewModel := vm } : SignUpForm).bindingViewModel P

theorem follows_of (P : Platform) (vm : SignUpViewModel) (as : List Assignment) :
    Follows P (run (SignUpForm.assign P) (SignUpForm.subscribed P vm) as)
      (FormInput.of vm as) := by
  obtain ⟨he, hp, hc⟩ := SignUpForm.viewModel_bindingViewModel P { viewModel := vm }
  exact follows_run P _ _ ⟨he, hp, hc, SignUpForm.gateInv_bindingViewModel P _⟩ as

/-- The button is enabled exactly for a valid email and password that was
repeated correctly, and the third subject says whether it was. -/
def GateTracks (P : Platform) (f : SignUpForm) : Prop :=
  (f.userInfoButtonEnabled = true ↔
    validateEmail f.viewModel.email = true ∧ validatePassword f.viewModel.password = true ∧
      P.stringEq f.viewModel.password f.viewModel.checkPassword = true) ∧
  (f.viewModel.checkPasswordValidSubject = true ↔
    P.stringEq f.viewModel.password f.viewModel.checkPassword = true)

/-- **The gate tracks the form exactly when** the password of the moment
`checkPassword` was last assigned and the current one compare alike with
the current `checkPassword`. -/
theorem gateTracks_iff (P : Platform) (vm : SignUpViewModel) (as : List Assignment) :
    GateTracks P (run (SignUpForm.assign P) (SignUpForm.subscribed P vm) as) ↔
      P.stringEq (FormInput.of vm as).passwordWhenChecked (FormInput.of vm as).checkPassword
        = P.stringEq (FormInput.of vm as).password (FormInput.of vm as).checkPassword := by
  have h := follows_of P vm as
  unfold GateTracks
  rw [h.gate.button, h.gate.subject, h.email, h.password, h.checkPassword]
  generalize P.stringEq (FormInput.of vm as).passwordWhenChecked _ = then_
  generalize P.stringEq (FormInput.of vm as).password _ = now
  cases then_ <;> cases now <;> simp

/-- A form filled in correctly, whose password is then changed. -/
def correctedPassword : List Assignment :=
  [.email "a@b.co", .password "abcdef1", .checkPassword "abcdef1", .password "abcdef2"]

/-- The button stays enabled although the two passwords differ. -/
theorem gate_misses_corrected_password :
    ¬ GateTracks .gregorian
      (run (SignUpForm.assign .gregorian) (SignUpForm.subscribed .gregorian {})
        correctedPassword) := by
  have hbutton : (run (SignUpForm.assign .gregorian) (SignUpForm.subscribed .gregorian {})
      correctedPassword).userInfoButtonEnabled = true := by decide
  rintro ⟨hgate, -⟩
  obtain ⟨-, -, hsame⟩ := hgate.mp hbutton
  revert hsame
  decide

end BetweenUS.Rogin
