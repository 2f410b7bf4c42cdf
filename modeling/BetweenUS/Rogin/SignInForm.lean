/-
BetweenUS.Rogin.SignInForm — the sign-in page: `SignInViewModel.swift` and
the bindings of `SignInViewController.swift`.

`isValidSignIn()` combines the email and the password publisher; the page
subscribes to it once and lets it drive `signInButton.isEnabled`. Only
after that it attaches the two labels to the validity subjects, which
replay their value to a new subscriber. The text fields' publishers
deliver an optional text, and a nil text is dropped by the `guard` of the
sink.
-/
import BetweenUS.Combine.Publishers
import BetweenUS.Rogin.LoginViewModel

namespace BetweenUS.Rogin

open BetweenUS.Combine BetweenUS.Manager

/-! ## Labels -/

/-- The text of a validity label. -/
def validText (warning : String) (isValid : Bool) : String :=
  if isValid then " " else warning

def emailWarning : String := " 이메일이 올바른 형식이 아닙니다"

def passwordWarning : String := " 비밀번호가 올바른 형식이 아닙니다"

/-! ## The page -/

structure SignInForm where
  viewModel : LoginViewModel := {}
  /-- The memory of the `combineLatest` in `isValidSignIn()`. -/
  latest : Latest₂ Bool Bool := .empty
  signInButtonEnabled : Bool := false
  /-- The labels are attached to the validity subjects. -/
  labelsBound : Bool := false
  emailValidLabel : String := emailWarning
  passwordValidLabel : String := passwordWarning
  deriving DecidableEq, Repr

namespace SignInForm

def receive (f : SignInForm) (latest : Latest₂ Bool Bool) : SignInForm :=
  match latest.output with
  | some (email, password) =>
      { f with latest := latest
               signInButtonEnabled := if email && password then true else false }
  | none => { f with latest := latest }

/-- The sink of `emailValidSubject`. -/
def showEmailValid (f : SignInForm) (isValid : Bool) : SignInForm :=
  { f with emailValidLabel := validText emailWarning isValid }

/-- The sink of `passwordValidSubject`. -/
def showPasswordValid (f : SignInForm) (isValid : Bool) : SignInForm :=
  { f with passwordValidLabel := validText passwordWarning isValid }

/-- `$email` emits. The closure sends into the subject, and so to the
label, before it returns the verdict to `combineLatest`. -/
def emailEmits (f : SignInForm) (email : String) : SignInForm :=
  let (vm, valid) := f.viewModel.emailValid email
  let f := { f with viewModel := vm }
  let f := if f.labelsBound then f.showEmailValid valid else f
  f.receive { f.latest with first := some valid }

def passwordEmits (f : SignInForm) (password : String) : SignInForm :=
  let (vm, valid) := f.viewModel.passwordValid password
  let f := { f with viewModel := vm }
  let f := if f.labelsBound then f.showPasswordValid valid else f
  f.receive { f.latest with second := some valid }

def setEmail (f : SignInForm) (email : String) : SignInForm :=
  { f.emailEmits email with viewModel.email := email }

def setPassword (f : SignInForm) (password : String) : SignInForm :=
  { f.passwordEmits password with viewModel.password := password }

/-- The sink of `emailTextField.textPublisher`. -/
def emailText (f : SignInForm) : Option String → SignInForm
  | some text => f.setEmail text
  | none => f

/-- The sink of `passwordTextField.textPublisher`. -/
def passwordText (f : SignInForm) : Option String → SignInForm
  | some text => f.setPassword text
  | none => f

def bindingViewModel (f : SignInForm) : SignInForm :=
  let f := { f with latest := .empty }
  let f := f.emailEmits f.viewModel.email
  let f := f.passwordEmits f.viewModel.password
  let f := f.showEmailValid f.viewModel.emailValidSubject
  let f := f.showPasswordValid f.viewModel.passwordValidSubject
  { f with labelsBound := true }

/-- Both text fields are empty and emit that on subscription. -/
def bindingViewProperties (f : SignInForm) : SignInForm :=
  (f.emailText (some "")).passwordText (some "")

/-- `viewDidLoad()` of a new `SignInViewController`. -/
def viewDidLoad : SignInForm :=
  ({} : SignInForm).bindingViewModel.bindingViewProperties

/-- The call of `AuthManager.signIn` that `viewModel.signIn()` makes. -/
def request (f : SignInForm) : Request :=
  .signIn f.viewModel.email f.viewModel.password

end SignInForm

end BetweenUS.Rogin
