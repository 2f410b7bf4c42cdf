/-
BetweenUS.Rogin.SignInFormTheorems — the sign-in page against the texts
that have been typed into it.

Unlike the sign-up page, which remembers an old comparison, the sign-in
page has no memory of its own. `settled vm` is the page COMPUTED from the
two stored texts: subjects, slots of `combineLatest`, button and labels
are all verdicts about them. Subscribing leads to such a page, whatever
the view model held (`subscribed_eq_settled`), and delivering a text to
such a page leads to the page of the new texts (`deliver_settled`), since
the value a `@Published` property emits before it stores it is the value
it then stores. So a page after any history of texts is the settled page
of the last ones (`run_deliver`).
-/
import BetweenUS.Rogin.SignInForm
import BetweenUS.Runs.Machine

namespace BetweenUS.Rogin

open BetweenUS.Combine BetweenUS.Runs

/-! ## Text events -/

/-- What a text field's publisher delivers. -/
inductive TextEvent where
  | email (text : Option String)
  | password (text : Option String)
  deriving DecidableEq, Repr

/-- The non-nil text of the email field. -/
def TextEvent.email? : TextEvent → Option String
  | .email text => text
  | .password _ => none

/-- The non-nil text of the password field. -/
def TextEvent.password? : TextEvent → Option String
  | .email _ => none
  | .password text => text

def SignInForm.deliver (f : SignInForm) : TextEvent → SignInForm
  | .email text => f.emailText text
  | .password text => f.passwordText text

/-- The page right after `isValidSignIn()` and the labels have been
subscribed. -/
def SignInForm.subscribed (vm : LoginViewModel) : SignInForm :=
  ({ viewModel := vm } : SignInForm).bindingViewModel

/-! ## The settled page -/

/-- The page computed from the stored texts. -/
def SignInForm.settled (vm : LoginViewModel) : SignInForm where
  viewModel := { vm with emailValidSubject := validateEmail vm.email
                         passwordValidSubject := validatePassword vm.password }
  latest := ⟨some (validateEmail vm.email), some (validatePassword vm.password)⟩
  signInButtonEnabled := validateEmail vm.email && validatePassword vm.password
  labelsBound := true
  emailValidLabel := validText emailWarning (validateEmail vm.email)
  passwordValidLabel := validText passwordWarning (validatePassword vm.password)

/-- What a text event stores. -/
def TextEvent.store (vm : LoginViewModel) : TextEvent → LoginViewModel
  | .email text => { vm with email := text.getD vm.email }
  | .password text => { vm with password := text.getD vm.password }

namespace SignInForm

@[simp] theorem email_settled (vm : LoginViewModel) :
    (settled vm).viewModel.email = vm.email := by
  simp only [settled]

@[simp] theorem password_settled (vm : LoginViewModel) :
    (settled vm).viewModel.password = vm.password := by
  simp only [settled]

theorem subscribed_eq_settled (vm : LoginViewModel) : subscribed vm = settled vm := by
  simp [subscribed, bindingViewModel, emailEmits, passwordEmits, showEmailValid,
    showPasswordValid, LoginViewModel.emailValid, LoginViewModel.passwordValid, receive,
    Latest₂.empty, Latest₂.output, settled]

theorem setEmail_settled (vm : LoginViewModel) (email : String) :
    (settled vm).setEmail email = settled { vm with email := email } := by
  simp [setEmail, emailEmits, showEmailValid, LoginViewModel.emailValid, receive, settled]

theorem setPassword_settled (vm : LoginViewModel) (password : String) :
    (settled vm).setPassword password = settled { vm with password := password } := by
  simp [setPassword, passwordEmits, showPasswordValid, LoginViewModel.passwordValid, receive,
    settled]

/-- One event leads from a settled page to the settled page of what it
stores. -/
theorem deliver_settled (vm : LoginViewModel) (e : TextEvent) :
    (settled vm).deliver e = settled (e.store vm) := by
  cases e with
  | email text =>
    cases text with
    | none => rfl
    | some text => exact setEmail_settled vm text
  | password text =>
    cases text with
    | none => rfl
    | some text => exact setPassword_settled vm text

theorem run_deliver (vm : LoginViewModel) (es : List TextEvent) :
    run deliver (settled vm) es = settled (run TextEvent.store vm es) := by
  induction es generalizing vm with
  | nil => rfl
  | cons e es ih =>
    show run deliver ((settled vm).deliver e) es = settled (run TextEvent.store (e.store vm) es)
    rw [deliver_settled, ih]

end SignInForm

/-! ## The texts that are stored -/

theorem TextEvent.email_store (vm : LoginViewModel) (e : TextEvent) :
    (store vm e).email = e.email?.getD vm.email := by
  cases e <;> rfl

theorem TextEvent.password_store (vm : LoginViewModel) (e : TextEvent) :
    (store vm e).password = e.password?.getD vm.password := by
  cases e <;> rfl

/-! ## Whole histories -/

/-- What the page shows and offers describes the two stored texts. -/
structure SignInTracks (f : SignInForm) : Prop where
  /-- The latest value of `isValidSignIn()` drives the button. -/
  latest : f.latest.output.map (fun (email, password) => email && password)
    = some f.signInButtonEnabled
  button : f.signInButtonEnabled = true ↔
    validateEmail f.viewModel.email = true ∧ validatePassword f.viewModel.password = true
  emailSubject : f.viewModel.emailValidSubject = validateEmail f.viewModel.email
  passwordSubject : f.viewModel.passwordValidSubject = validatePassword f.viewModel.password
  emailLabel : f.emailValidLabel = validText emailWarning (validateEmail f.viewModel.email)
  passwordLabel : f.passwordValidLabel
    = validText passwordWarning (validatePassword f.viewModel.password)

theorem signInTracks_settled (vm : LoginViewModel) : SignInTracks (.settled vm) := by
  constructor <;> simp [SignInForm.settled]

/-- **Gate and labels track the sign-in form** after every history of text
events, and the form holds the last non-nil text of each field (before
the first one, what the view model held). -/
theorem signInTracks_run (vm : LoginViewModel) (es : List TextEvent) :
    SignInTracks (run SignInForm.deliver (.subscribed vm) es) ∧
      (run SignInForm.deliver (.subscribed vm) es).viewModel.email
        = (es.filterMap TextEvent.email?).getLastD vm.email ∧
      (run SignInForm.deliver (.subscribed vm) es).viewModel.password
        = (es.filterMap TextEvent.password?).getLastD vm.password := by
  rw [SignInForm.subscribed_eq_settled, SignInForm.run_deliver, SignInForm.email_settled,
    SignInForm.password_settled]
  exact ⟨signInTracks_settled _, register_run TextEvent.email_store vm es,
    register_run TextEvent.password_store vm es⟩

/-! ## A new page -/

/-- A new page has been subscribed, and the two empty fields have emitted. -/
theorem viewDidLoad_eq_run :
    SignInForm.viewDidLoad
      = run SignInForm.deliver (.subscribed {}) [.email (some ""), .password (some "")] := by
  simp only [SignInForm.viewDidLoad, SignInForm.bindingViewProperties, SignInForm.subscribed, run,
    List.foldl_cons, List.foldl_nil, SignInForm.deliver]

end BetweenUS.Rogin
