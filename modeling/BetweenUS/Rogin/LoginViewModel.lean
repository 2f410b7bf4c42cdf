/-
BetweenUS.Rogin.LoginViewModel — `loginViewModel.swift`: the fields and
subjects the sign-in and the sign-up view model inherit, the two
validators, the three validity publishers and `authCompletion`.

A validity publisher is a `map` over a `@Published` property. What its
closure does with one emitted value is the function of the same name
here: the value comes in as an argument because `@Published` emits BEFORE
it stores, so the view model passed along still holds the old value. The
closure sends its verdict into a `CurrentValueSubject` and returns it.

⚠️ `checkPasswordValid` is a map over `$checkPassword` alone, and reads
`password` from the view model. It is not run when `password` changes.

Two things the code takes from the platform are parameters, collected in
`Platform`: Swift's `==` on strings (canonical equivalence) and the
`DateFormatter` behind `String.dateToString`.
-/
import BetweenUS.Regex.Syntax
import BetweenUS.Manager.AuthManager

namespace BetweenUS.Rogin

open BetweenUS.Regex BetweenUS.Manager

/-! ## The platform -/

/-- What the code takes from the platform without saying what it does. -/
structure Platform where
  /-- `Date`, as the date picker delivers it. -/
  Date : Type
  /-- `String.dateToString(date:)`: the `DateFormatter`'s text, which
  depends on the device's calendar and locale. -/
  dateToString : Date → String
  /-- Swift's `==` on `String`. -/
  stringEq : String → String → Bool

structure CalendarDate where
  year : Nat
  month : Nat
  day : Nat
  deriving DecidableEq, Repr

def twoDigits (n : Nat) : String := if n < 10 then "0" ++ toString n else toString n

/-- A device with the Gregorian calendar and Western digits, on strings
whose canonical forms are themselves. -/
def Platform.gregorian : Platform where
  Date := CalendarDate
  dateToString := fun d =>
    toString d.year ++ "년 " ++ twoDigits d.month ++ "월 " ++ twoDigits d.day ++ "일"
  stringEq := fun a b => a == b

/-! ## Validators -/

/-- `[A-Z0-9a-z._%+-]+@[A-Za-z0-9.-]+\.[A-Za-z]{2,64}` -/
def emailRegex : Re :=
  .seq (.rep (.cls fun c => asciiLetter c || asciiDigit c || c ∈ ['.', '_', '%', '+', '-']) 1 none) <|
  .seq (.cls (· == '@')) <|
  .seq (.rep (.cls fun c => asciiLetter c || asciiDigit c || c ∈ ['.', '-']) 1 none) <|
  .seq (.cls (· == '.')) <|
  .rep (.cls asciiLetter) 2 (some 64)

/-- `^(?=.*[A-Za-z])(?=.*[0-9]).{7,50}` -/
def passwordRegex : Re :=
  .seq .start <|
  .seq (.look (.seq (.rep (.cls anyButLineTerminator) 0 none) (.cls asciiLetter))) <|
  .seq (.look (.seq (.rep (.cls anyButLineTerminator) 0 none) (.cls asciiDigit))) <|
  .rep (.cls anyButLineTerminator) 7 (some 50)

def validateEmail (email : String) : Bool := matchesWhole emailRegex email

def validatePassword (password : String) : Bool := matchesWhole passwordRegex password

/-! ## Fields and publishers -/

/-- The stored properties and the values of the `CurrentValueSubject`s. -/
structure LoginViewModel where
  email : String := ""
  password : String := ""
  checkPassword : String := ""
  emailValidSubject : Bool := false
  passwordValidSubject : Bool := false
  checkPasswordValidSubject : Bool := false
  deriving DecidableEq, Repr

/-- The closure of `emailValid()` on one value of `$email`. -/
def LoginViewModel.emailValid (vm : LoginViewModel) (email : String) :
    LoginViewModel × Bool :=
  let valid := validateEmail email
  ({ vm with emailValidSubject := valid }, valid)

/-- The closure of `passwordValid()` on one value of `$password`. -/
def LoginViewModel.passwordValid (vm : LoginViewModel) (password : String) :
    LoginViewModel × Bool :=
  let valid := validatePassword password
  ({ vm with passwordValidSubject := valid }, valid)

/-- The closure of `checkPasswordValid()` on one value of `$checkPassword`;
the password it compares with is the stored one. -/
def LoginViewModel.checkPasswordValid (P : Platform) (vm : LoginViewModel)
    (checkPassword : String) : LoginViewModel × Bool :=
  if P.stringEq vm.password checkPassword then
    ({ vm with checkPasswordValidSubject := true }, true)
  else
    ({ vm with checkPasswordValidSubject := false }, false)

/-! ## authCompletion -/

/-- What `authSuccessSubject` and `authFailureSubject` send. -/
inductive SubjectEvent where
  | authSuccess
  | authFailure (message : String)
  deriving DecidableEq, Repr

/-- The one subject `authCompletion` fires for a result. -/
def authCompletion : Except AuthError Bool → SubjectEvent
  | .ok _ => .authSuccess
  | .error (.error _ message) => .authFailure message

end BetweenUS.Rogin
