/-
BetweenUS.Rogin.SignUpForm — the first sign-up page: `SignUpViewModel.swift`
and the bindings of `SignUpViewController.swift`.

`isValidSignUp()` is a `combineLatest` of the three validity publishers,
and the page's one subscription to it keeps the memory of that operator
(`latest`) and drives `userInfoButton.isEnabled`. An assignment to a
`@Published` property is therefore two things in this order: its
publisher's closure runs on the new value and the verdict goes through
`combineLatest` to the button; then the value is stored.

The labels under the text fields are sinks of the three
`CurrentValueSubject`s and carry no state of their own; the tints follow
`isEnabled`. Both are left out.
-/
import BetweenUS.Combine.Publishers
import BetweenUS.Rogin.LoginViewModel

namespace BetweenUS.Rogin

open BetweenUS.Combine BetweenUS.Model

/-! ## The view model -/

structure SignUpViewModel extends LoginViewModel where
  name : String := ""
  nickName : String := ""
  birthDay : String := ""
  deriving DecidableEq, Repr

/-- The `User` that `signUp()` builds from the fields. -/
def SignUpViewModel.signUpUser (vm : SignUpViewModel) : User :=
  { id := "", email := vm.email, name := vm.name, nickName := vm.nickName,
    birthday := vm.birthDay, content := none }

/-- What `notEmptyAllTextField()` sends. -/
def SignUpViewModel.notEmptyAllTextField (vm : SignUpViewModel) : Bool :=
  if vm.name.isEmpty || vm.nickName.isEmpty || vm.birthDay.isEmpty then false else true

/-! ## The page -/

structure SignUpForm where
  viewModel : SignUpViewModel := {}
  /-- The memory of the `combineLatest` in `isValidSignUp()`. -/
  latest : Latest₃ Bool Bool Bool := .empty
  userInfoButtonEnabled : Bool := false
  deriving DecidableEq, Repr

namespace SignUpForm

/-- An input of `combineLatest` has emitted; the sink of `isValidSignUp()`
hears about it once all three have. -/
def receive (f : SignUpForm) (latest : Latest₃ Bool Bool Bool) : SignUpForm :=
  match latest.output with
  | some (email, password, check) =>
      { f with latest := latest
               userInfoButtonEnabled := if email && password && check then true else false }
  | none => { f with latest := latest }

def emailEmits (f : SignUpForm) (email : String) : SignUpForm :=
  let (vm, valid) := f.viewModel.emailValid email
  { f with viewModel.toLoginViewModel := vm }.receive { f.latest with first := some valid }

def passwordEmits (f : SignUpForm) (password : String) : SignUpForm :=
  let (vm, valid) := f.viewModel.passwordValid password
  { f with viewModel.toLoginViewModel := vm }.receive { f.latest with second := some valid }

def checkPasswordEmits (P : Platform) (f : SignUpForm) (checkPassword : String) :
    SignUpForm :=
  let (vm, valid) := f.viewModel.checkPasswordValid P checkPassword
  { f with viewModel.toLoginViewModel := vm }.receive { f.latest with third := some valid }

/-! `@Published` emits, then stores. -/

def setEmail (f : SignUpForm) (email : String) : SignUpForm :=
  { f.emailEmits email with viewModel.email := email }

def setPassword (f : SignUpForm) (password : String) : SignUpForm :=
  { f.passwordEmits password with viewModel.password := password }

def setCheckPassword (P : Platform) (f : SignUpForm) (checkPassword : String) : SignUpForm :=
  { f.checkPasswordEmits P checkPassword with viewModel.checkPassword := checkPassword }

/-- `bindingViewModel()`: subscribing to `isValidSignUp()` subscribes to the
three publishers in turn, and each emits its current value. -/
def bindingViewModel (P : Platform) (f : SignUpForm) : SignUpForm :=
  let f := { f with latest := .empty }
  let f := f.emailEmits f.viewModel.email
  let f := f.passwordEmits f.viewModel.password
  f.checkPasswordEmits P f.viewModel.checkPassword

/-- `bindingViewProperties()`: the three text fields are empty and emit
that on subscription. -/
def bindingViewProperties (P : Platform) (f : SignUpForm) : SignUpForm :=
  (((f.setEmail "").setPassword "").setCheckPassword P "")

/-- `viewDidLoad()` of a new `SignUpViewController`. -/
def viewDidLoad (P : Platform) : SignUpForm :=
  (({} : SignUpForm).bindingViewModel P).bindingViewProperties P

end SignUpForm

/-! ## Assignments -/

/-- An assignment to one of the three `@Published` properties. -/
inductive Assignment where
  | email (text : String)
  | password (text : String)
  | checkPassword (text : String)
  deriving DecidableEq, Repr

def SignUpForm.assign (P : Platform) (f : SignUpForm) : Assignment → SignUpForm
  | .email text => f.setEmail text
  | .password text => f.setPassword text
  | .checkPassword text => f.setCheckPassword P text

end BetweenUS.Rogin
