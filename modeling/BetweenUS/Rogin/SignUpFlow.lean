/-
BetweenUS.Rogin.SignUpFlow — the whole sign-up screen: the first page
with the view model, the stack of `SignUpUserInformationViewController`
pages pushed over it, and the alert that may cover both.

The view model belongs to the first page and OUTLIVES every pushed page;
a pushed page copies the profile fields into its text fields when it
loads, and is gone with its subscriptions when it is popped.

What UIKit promises and what the code does are kept apart.

* `delivers` — which user inputs can happen at all: a page's controls
  receive events only while the page is on top, a disabled button
  delivers no taps, and an alert is modal. The next button is the one
  exception: nothing stops it from pushing several pages in a row, so it
  is not asked to be on top.
* `handle` — what the handler does with a delivered input, from the
  source. `none` means that the screen has been dismissed.

`viewDidLoad` of a pushed page keeps the source's order: the fields are
filled (`configureView`), the text publishers are bound and emit what the
fields now hold, and only THEN the page attaches to
`notEmptyAllTextFieldSubject`, which does not replay. Last, the date
picker emits its initial date over the birthday text.

`text` of a `UITextField` is never nil when read, so texts are strings
and the `??` of `doneSelectDate` takes its left side. The birthday field
can also be typed into from a hardware keyboard or pasted into.
-/
import BetweenUS.Rogin.SignUpForm

namespace BetweenUS.Rogin

open BetweenUS.Combine BetweenUS.Manager

/-! ## State -/

/-- A `SignUpUserInformationViewController`. -/
structure UserInfoPage where
  nameText : String := ""
  nickNameText : String := ""
  birthdayText : String := ""
  signUpButtonEnabled : Bool := false
  /-- `bindingViewModel()` has attached the page's sinks. -/
  listening : Bool := false
  deriving DecidableEq, Repr

/-- The page's sink of `notEmptyAllTextFieldSubject`. -/
def UserInfoPage.hearNotEmpty (p : UserInfoPage) (notEmpty : Bool) : UserInfoPage :=
  { p with signUpButtonEnabled := notEmpty }

structure SignUpFlow where
  form : SignUpForm
  /-- The pages over the first one, the top page first. -/
  pages : List UserInfoPage := []
  /-- The message of the alert on screen. -/
  alert : Option String := none
  deriving DecidableEq, Repr

namespace SignUpFlow

abbrev viewModel (f : SignUpFlow) : SignUpViewModel := f.form.viewModel

/-- The screen when it appears: its first page has loaded. -/
def start (P : Platform) : SignUpFlow := { form := SignUpForm.viewDidLoad P }

/-! ## The profile fields -/

/-- `notEmptyAllTextFieldSubject.send(_)`: every attached page sets its
button. -/
def announce (f : SignUpFlow) : SignUpFlow :=
  { f with
      pages :=
        send UserInfoPage.listening UserInfoPage.hearNotEmpty
          f.viewModel.notEmptyAllTextField f.pages }

/-- Store new profile fields and run `didSet`. -/
def didSet (f : SignUpFlow) (vm : SignUpViewModel) : SignUpFlow :=
  { f with form.viewModel := vm }.announce

def setName (f : SignUpFlow) (name : String) : SignUpFlow :=
  f.didSet { f.viewModel with name := name }

def setNickName (f : SignUpFlow) (nickName : String) : SignUpFlow :=
  f.didSet { f.viewModel with nickName := nickName }

def setBirthDay (f : SignUpFlow) (birthDay : String) : SignUpFlow :=
  f.didSet { f.viewModel with birthDay := birthDay }

/-! ## A pushed page -/

def modifyTop (f : SignUpFlow) (g : UserInfoPage → UserInfoPage) : SignUpFlow :=
  match f.pages with
  | [] => f
  | p :: rest => { f with pages := g p :: rest }

def configureView (f : SignUpFlow) : SignUpFlow :=
  f.modifyTop fun p => { p with birthdayText := f.viewModel.birthDay
                                nameText := f.viewModel.name
                                nickNameText := f.viewModel.nickName }

/-- Both text publishers emit on subscription. -/
def bindingViewProperties (f : SignUpFlow) : SignUpFlow :=
  match f.pages with
  | [] => f
  | p :: _ => (f.setName p.nameText).setNickName p.nickNameText

def bindingViewModel (f : SignUpFlow) : SignUpFlow :=
  f.modifyTop fun p => { p with listening := true }

def selectDate (P : Platform) (f : SignUpFlow) (date : P.Date) : SignUpFlow :=
  f.modifyTop fun p => { p with birthdayText := P.dateToString date }

/-- The new picker's publisher emits its initial date. -/
def createDateSelectKeyboard (P : Platform) (f : SignUpFlow) (now : P.Date) : SignUpFlow :=
  f.selectDate P now

/-- `pushSignUpUserInfoViewController()`, up to the end of the new page's
`viewDidLoad`. -/
def push (P : Platform) (f : SignUpFlow) (now : P.Date) : SignUpFlow :=
  let f := { f with pages := {} :: f.pages }
  let f := f.configureView
  let f := f.bindingViewProperties
  let f := f.bindingViewModel
  f.createDateSelectKeyboard P now

/-- `doneSelectDate()`. -/
def doneSelectDate (f : SignUpFlow) : SignUpFlow :=
  match f.pages with
  | [] => f
  | p :: _ => f.setBirthDay p.birthdayText

end SignUpFlow

/-! ## Inputs -/

inductive ProfileField where
  | name
  | nickName
  | birthday
  deriving DecidableEq, Repr

/-- What the user can do on the screen. -/
inductive SignUpInput (P : Platform) where
  /-- Text events of the first page. -/
  | email (text : String)
  | password (text : String)
  | checkPassword (text : String)
  /-- A tap of `userInfoButton`; the new page's picker starts at `now`. -/
  | next (now : P.Date)
  | cancel
  /-- Text events of the top page. -/
  | name (text : String)
  | nickName (text : String)
  | birthday (text : String)
  | pick (date : P.Date)
  | done
  /-- A touch outside the fields ends editing of the one that has focus. -/
  | touchOutside (focus : Option ProfileField)
  | back
  | signUp
  | dismissAlert

namespace SignUpFlow

/-- The inputs UIKit can deliver. -/
def delivers {P : Platform} (f : SignUpFlow) : SignUpInput P → Bool
  | .dismissAlert => f.alert.isSome
  | .email _ | .password _ | .checkPassword _ | .cancel =>
      f.alert.isNone && f.pages.isEmpty
  | .next _ => f.alert.isNone && f.form.userInfoButtonEnabled
  | .name _ | .nickName _ | .birthday _ | .pick _ | .done | .touchOutside _ | .back =>
      f.alert.isNone && !f.pages.isEmpty
  | .signUp =>
      f.alert.isNone &&
        match f.pages with
        | [] => false
        | p :: _ => p.signUpButtonEnabled

/-- The handlers. -/
def handle (P : Platform) (f : SignUpFlow) : SignUpInput P → Option SignUpFlow
  | .email text => some { f with form := f.form.setEmail text }
  | .password text => some { f with form := f.form.setPassword text }
  | .checkPassword text => some { f with form := f.form.setCheckPassword P text }
  | .next now => some (f.push P now)
  | .cancel => none
  | .name text => some ((f.modifyTop fun p => { p with nameText := text }).setName text)
  | .nickName text =>
      some ((f.modifyTop fun p => { p with nickNameText := text }).setNickName text)
  | .birthday text => some (f.modifyTop fun p => { p with birthdayText := text })
  | .pick date => some (f.selectDate P date)
  | .done => some f.doneSelectDate
  | .touchOutside focus =>
      -- the field that loses focus emits its text once more
      match focus, f.pages with
      | some .name, p :: _ => some (f.setName p.nameText)
      | some .nickName, p :: _ => some (f.setNickName p.nickNameText)
      | _, _ => some f
  | .back => some { f with pages := f.pages.tail }
  | .signUp => some f
  | .dismissAlert => some { f with alert := none }

/-- One input: ignored unless it can be delivered. -/
def step (P : Platform) (f : SignUpFlow) (i : SignUpInput P) : Option SignUpFlow :=
  if f.delivers i then f.handle P i else some f

/-- The call of `AuthManager.signUp` an input makes: `viewModel.signUp()`. -/
def request {P : Platform} (f : SignUpFlow) (i : SignUpInput P) : Option Request :=
  match i with
  | .signUp =>
      if f.delivers i then
        some (.signUp f.viewModel.email f.viewModel.password f.viewModel.signUpUser)
      else none
  | _ => none

/-- The attached pages' sinks of `authSuccessSubject` and
`authFailureSubject`. `dismiss` takes down the alert if one is up, else
the screen; presenting over an alert has no effect. -/
def hear (f : SignUpFlow) (e : SubjectEvent) : Option SignUpFlow :=
  if f.pages.any UserInfoPage.listening then
    match e, f.alert with
    | .authSuccess, some _ => some { f with alert := none }
    | .authSuccess, none => none
    | .authFailure message, none => some { f with alert := some message }
    | .authFailure _, some _ => some f
  else some f

end SignUpFlow

/-! ## Runs of the screen -/

/-- An input of the user, or a subject of the view model firing. -/
inductive SignUpEvent (P : Platform) where
  | input (i : SignUpInput P)
  | subject (e : SubjectEvent)

/-- The screen as a machine; `none` once it has been dismissed. -/
def SignUpFlow.next (P : Platform) :
    Option SignUpFlow → SignUpEvent P → Option SignUpFlow
  | none, _ => none
  | some f, .input i => f.step P i
  | some f, .subject e => f.hear e

end BetweenUS.Rogin
