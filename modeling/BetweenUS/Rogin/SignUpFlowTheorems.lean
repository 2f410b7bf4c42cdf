/-
BetweenUS.Rogin.SignUpFlowTheorems — the sign-up button across pushes and
pops of the second page.

A page learns whether the profile is filled in from a subject that does
not replay. ⚠️ Its `viewDidLoad` writes the pre-filled name and nickname
back to the view model BEFORE it subscribes, so the announcements those
writes cause pass the new page by, and its button stays disabled. The two
other pages of the app bind their view model first.

`FlowInv R` is the invariant of the whole screen, with the relation `R`
between a page's button and the profile left open. Two instances are used:
equality, which every step but a push over a complete profile keeps
(`topTracks_iff`), and "enabled only if complete", which every step keeps
and which decides what the button can submit.
-/
import BetweenUS.Rogin.SignUpFlow
import BetweenUS.Rogin.SignUpFormTheorems

namespace BetweenUS.Rogin

open BetweenUS.Combine BetweenUS.Manager BetweenUS.Runs

namespace SignUpFlow

/-! ## The building blocks of a step -/

theorem notEmptyAllTextField_iff (vm : SignUpViewModel) :
    vm.notEmptyAllTextField = true ↔
      vm.name ≠ "" ∧ vm.nickName ≠ "" ∧ vm.birthDay ≠ "" := by
  unfold SignUpViewModel.notEmptyAllTextField
  simp [String.isEmpty_iff, and_assoc]

/-- What `delivers` asks of the inputs of the first page. -/
theorem pages_eq_nil_of_delivers {f : SignUpFlow} {a : Bool}
    (h : (a && f.pages.isEmpty) = true) : f.pages = [] := by
  rw [Bool.and_eq_true] at h
  exact List.isEmpty_iff.mp h.2

/-- What it asks of the inputs of a pushed page. -/
theorem pages_ne_nil_of_delivers {f : SignUpFlow} {a : Bool}
    (h : (a && !f.pages.isEmpty) = true) : f.pages ≠ [] := by
  rw [Bool.and_eq_true] at h
  intro hnil
  simp [hnil] at h

@[simp] theorem form_modifyTop (f : SignUpFlow) (g : UserInfoPage → UserInfoPage) :
    (f.modifyTop g).form = f.form := by
  unfold modifyTop
  split <;> rfl

/-- Once every page is attached, an announcement reaches every page. -/
theorem pages_didSet {f : SignUpFlow} (hl : ∀ p ∈ f.pages, p.listening = true)
    (vm : SignUpViewModel) :
    (f.didSet vm).pages = f.pages.map (·.hearNotEmpty vm.notEmptyAllTextField) :=
  send_of_attached _ _ hl

/-- The page `viewDidLoad` ends with. -/
def loadedPage (P : Platform) (vm : SignUpViewModel) (now : P.Date) : UserInfoPage :=
  { nameText := vm.name, nickNameText := vm.nickName,
    birthdayText := P.dateToString now, signUpButtonEnabled := false, listening := true }

/-- A push in one piece. -/
theorem push_eq (P : Platform) (f : SignUpFlow) (now : P.Date)
    (hl : ∀ p ∈ f.pages, p.listening = true) :
    f.push P now = { f with
      pages := loadedPage P f.viewModel now ::
        f.pages.map (·.hearNotEmpty f.viewModel.notEmptyAllTextField) } := by
  -- the new page is not attached yet, so both announcements pass it by
  have hpush : f.push P now = { f with
      pages := loadedPage P f.viewModel now ::
        send UserInfoPage.listening UserInfoPage.hearNotEmpty f.viewModel.notEmptyAllTextField
          (send UserInfoPage.listening UserInfoPage.hearNotEmpty
            f.viewModel.notEmptyAllTextField f.pages) } := rfl
  have hl' : ∀ p ∈ f.pages.map (·.hearNotEmpty f.viewModel.notEmptyAllTextField),
      p.listening = true := by
    intro p hp
    obtain ⟨q, hq, rfl⟩ := List.mem_map.mp hp
    exact hl q hq
  rw [hpush, send_of_attached _ _ hl, send_of_attached _ _ hl', List.map_map]
  rfl

/-! ## The invariant of the screen -/

/-- The first page remembers its gate, pages are open only over a valid
email and password, and every open page is attached, its button standing
in the relation `R` to whether all profile fields are filled in. -/
structure FlowInv (R : Bool → Bool → Prop) (f : SignUpFlow) : Prop where
  gate : ∃ check, f.form.GateInv check
  validated : f.pages ≠ [] →
    validateEmail f.viewModel.email = true ∧ validatePassword f.viewModel.password = true
  pages : ∀ p ∈ f.pages, p.listening = true ∧
    R p.signUpButtonEnabled f.viewModel.notEmptyAllTextField

variable {R : Bool → Bool → Prop}

theorem FlowInv.listening {f : SignUpFlow} (h : FlowInv R f) :
    ∀ p ∈ f.pages, p.listening = true :=
  fun p hp => (h.pages p hp).1

/-- The first page only moves while nothing is over it. -/
theorem FlowInv.of_pages_nil {f : SignUpFlow} {check : Bool} (hgate : f.form.GateInv check)
    (hnil : f.pages = []) : FlowInv R f :=
  ⟨⟨check, hgate⟩, fun h => absurd hnil h, by simp [hnil]⟩

theorem FlowInv.start (P : Platform) : FlowInv R (SignUpFlow.start P) :=
  FlowInv.of_pages_nil (SignUpForm.gateInv_viewDidLoad P) rfl

/-- Storing profile fields: every open page hears the new verdict. -/
theorem FlowInv.didSet {f : SignUpFlow} (h : FlowInv R f) (hR : ∀ b, R b b)
    (vm : SignUpViewModel) (hvm : vm.toLoginViewModel = f.viewModel.toLoginViewModel) :
    FlowInv R (f.didSet vm) := by
  obtain ⟨check, hgate⟩ := h.gate
  have hpages := pages_didSet h.listening vm
  refine ⟨⟨check, hgate.setProfile vm hvm⟩, ?_, ?_⟩
  · intro hne
    rw [hpages] at hne
    have hv := h.validated (by simpa using hne)
    rw [← hvm] at hv
    exact hv
  · intro p hp
    rw [hpages] at hp
    obtain ⟨q, hq, rfl⟩ := List.mem_map.mp hp
    exact ⟨h.listening q hq, hR _⟩

/-- Changing texts of the top page touches neither its button nor the
view model. -/
theorem FlowInv.modifyTop {f : SignUpFlow} (h : FlowInv R f)
    {g : UserInfoPage → UserInfoPage} (hl : ∀ p, (g p).listening = p.listening)
    (he : ∀ p, (g p).signUpButtonEnabled = p.signUpButtonEnabled) :
    FlowInv R (f.modifyTop g) := by
  unfold SignUpFlow.modifyTop
  split
  · exact h
  · rename_i p rest heq
    refine ⟨h.gate, fun _ => h.validated (by simp [heq]), ?_⟩
    intro q hq
    rcases List.mem_cons.mp hq with rfl | hq
    · have hp := h.pages p (by simp [heq])
      rw [hl, he]
      exact hp
    · exact h.pages q (by simp [heq, hq])

/-- A push. The new page's button is disabled, whatever the fields hold. -/
theorem FlowInv.push {f : SignUpFlow} (h : FlowInv R f) (hR : ∀ b, R b b) (P : Platform)
    (now : P.Date) (henabled : f.form.userInfoButtonEnabled = true)
    (hnew : R false f.viewModel.notEmptyAllTextField) : FlowInv R (f.push P now) := by
  rw [push_eq P f now h.listening]
  refine ⟨h.gate, fun _ => ?_, ?_⟩
  · obtain ⟨check, hgate⟩ := h.gate
    rw [hgate.button, Bool.and_eq_true, Bool.and_eq_true] at henabled
    exact henabled.1
  · intro p hp
    rcases List.mem_cons.mp hp with rfl | hp
    · exact ⟨rfl, hnew⟩
    · obtain ⟨q, hq, rfl⟩ := List.mem_map.mp hp
      exact ⟨h.listening q hq, hR _⟩

theorem FlowInv.tail {f : SignUpFlow} (h : FlowInv R f) :
    FlowInv R { f with pages := f.pages.tail } := by
  refine ⟨h.gate, fun hne => ?_, fun p hp => h.pages p (List.mem_of_mem_tail hp)⟩
  apply h.validated
  intro hnil
  exact hne (by simp [hnil])

theorem FlowInv.alert {f : SignUpFlow} (h : FlowInv R f) (alert : Option String) :
    FlowInv R { f with alert := alert } :=
  ⟨h.gate, h.validated, h.pages⟩

/-- One handler. `hnext` is what a push has to bring along. -/
theorem FlowInv.handle {P : Platform} {f f' : SignUpFlow} (h : FlowInv R f)
    (hR : ∀ b, R b b) {i : SignUpInput P} (hd : f.delivers i = true)
    (hnext : ∀ now, i = .next now → R false f.viewModel.notEmptyAllTextField)
    (hf : f.handle P i = some f') : FlowInv R f' := by
  obtain ⟨check, hgate⟩ := h.gate
  cases i with
  | email text =>
    cases hf
    exact .of_pages_nil (hgate.setEmail text) (pages_eq_nil_of_delivers hd)
  | password text =>
    cases hf
    exact .of_pages_nil (hgate.setPassword text) (pages_eq_nil_of_delivers hd)
  | checkPassword text =>
    cases hf
    exact .of_pages_nil (hgate.setCheckPassword P text) (pages_eq_nil_of_delivers hd)
  | next now =>
    cases hf
    have henabled : f.form.userInfoButtonEnabled = true := ((Bool.and_eq_true _ _).mp hd).2
    exact h.push hR P now henabled (hnext now rfl)
  | cancel => cases hf
  | name text =>
    cases hf
    refine FlowInv.didSet ?_ hR _ rfl
    exact h.modifyTop (fun _ => rfl) (fun _ => rfl)
  | nickName text =>
    cases hf
    refine FlowInv.didSet ?_ hR _ rfl
    exact h.modifyTop (fun _ => rfl) (fun _ => rfl)
  | birthday text =>
    cases hf
    exact h.modifyTop (fun _ => rfl) (fun _ => rfl)
  | pick date =>
    cases hf
    exact h.modifyTop (fun _ => rfl) (fun _ => rfl)
  | done =>
    cases hf
    unfold doneSelectDate
    split
    · exact h
    · exact h.didSet hR _ rfl
  | touchOutside focus =>
    simp only [SignUpFlow.handle] at hf
    split at hf
    · cases hf; exact h.didSet hR _ rfl
    · cases hf; exact h.didSet hR _ rfl
    · cases hf; exact h
  | back => cases hf; exact h.tail
  | signUp => cases hf; exact h
  | dismissAlert => cases hf; exact h.alert none

theorem FlowInv.step {P : Platform} {f f' : SignUpFlow} (h : FlowInv R f)
    (hR : ∀ b, R b b) {i : SignUpInput P}
    (hnext : ∀ now, i = .next now → f.delivers i = true →
      R false f.viewModel.notEmptyAllTextField)
    (hf : f.step P i = some f') : FlowInv R f' := by
  unfold SignUpFlow.step at hf
  split at hf
  · rename_i hd
    exact h.handle hR hd (fun now hi => hnext now hi hd) hf
  · cases hf; exact h

theorem FlowInv.hear {f f' : SignUpFlow} (h : FlowInv R f) {e : SubjectEvent}
    (hf : f.hear e = some f') : FlowInv R f' := by
  unfold SignUpFlow.hear at hf
  split at hf
  · split at hf
    · cases hf; exact h.alert none
    · cases hf
    · cases hf; exact h.alert _
    · cases hf; exact h
  · cases hf; exact h

/-- One event of the screen, dismissed or not. -/
theorem FlowInv.next {P : Platform} {o : Option SignUpFlow} {e : SignUpEvent P}
    (h : ∀ f, o = some f → FlowInv R f) (hR : ∀ b, R b b)
    (hnext : ∀ f now, o = some f → e = .input (.next now) →
      f.delivers (P := P) (.next now) = true → R false f.viewModel.notEmptyAllTextField) :
    ∀ f, SignUpFlow.next P o e = some f → FlowInv R f := by
  intro f' hf'
  cases o with
  | none => cases hf'
  | some f =>
    have hf := h f rfl
    cases e with
    | subject e => exact hf.hear hf'
    | input i =>
      refine hf.step hR ?_ hf'
      intro now hi hd
      subst hi
      exact hnext f now rfl rfl hd

end SignUpFlow

open SignUpFlow

/-! ## The sign-up button across navigation -/

/-- The button of the top page says whether the profile is filled in. -/
def TopTracks : Option SignUpFlow → Prop
  | none => True
  | some f => ∀ p rest, f.pages = p :: rest →
      (p.signUpButtonEnabled = true ↔
        f.viewModel.name ≠ "" ∧ f.viewModel.nickName ≠ "" ∧ f.viewModel.birthDay ≠ "")

/-- A push happens only while some profile field is empty. -/
def PushesIncomplete {P : Platform} : Option SignUpFlow → SignUpEvent P → Prop
  | some f, .input (.next now) => f.delivers (.next now) = true →
      f.viewModel.name = "" ∨ f.viewModel.nickName = "" ∨ f.viewModel.birthDay = ""
  | _, _ => True

theorem incomplete_iff (vm : SignUpViewModel) :
    false = vm.notEmptyAllTextField ↔
      vm.name = "" ∨ vm.nickName = "" ∨ vm.birthDay = "" := by
  have h := notEmptyAllTextField_iff vm
  cases hb : vm.notEmptyAllTextField with
  | false =>
    rw [hb] at h
    by_contra hne
    simp only [true_iff, not_or] at hne
    exact Bool.false_ne_true (h.mpr hne)
  | true =>
    rw [hb] at h
    obtain ⟨h1, h2, h3⟩ := h.mp rfl
    simp [h1, h2, h3]

theorem topTracks_of_flowInv {f : SignUpFlow} (h : FlowInv Eq f) : TopTracks (some f) := by
  intro p rest hpages
  rw [(h.pages p (by simp [hpages])).2]
  exact notEmptyAllTextField_iff f.viewModel

theorem flowInv_next {P : Platform} {o : Option SignUpFlow} {e : SignUpEvent P}
    (h : ∀ f, o = some f → FlowInv Eq f) (hC : PushesIncomplete o e) :
    ∀ f, SignUpFlow.next P o e = some f → FlowInv Eq f := by
  refine FlowInv.next h (fun _ => rfl) ?_
  intro f now ho he hd
  subst ho he
  exact (incomplete_iff f.viewModel).mpr (hC hd)

/-- A push over complete fields leaves the new page's button wrong. -/
theorem pushesIncomplete_of_topTracks {P : Platform} {o : Option SignUpFlow}
    {e : SignUpEvent P} (h : ∀ f, o = some f → FlowInv Eq f)
    (hT : TopTracks (SignUpFlow.next P o e)) : PushesIncomplete o e := by
  cases o with
  | none => trivial
  | some f =>
    cases e with
    | subject e => trivial
    | input i =>
      cases i with
      | next now =>
        intro hd
        simp only [SignUpFlow.next, SignUpFlow.step, hd, if_true, SignUpFlow.handle] at hT
        rw [push_eq P f now (h f rfl).listening] at hT
        have hnew := hT _ _ rfl
        rw [← incomplete_iff]
        by_contra hne
        have htrue : f.viewModel.notEmptyAllTextField = true := by simpa using Ne.symm hne
        exact Bool.false_ne_true (hnew.mpr ((notEmptyAllTextField_iff _).mp htrue))
      | _ => trivial

/-- **The top page's button tracks the profile throughout a run exactly
when** every push of the run happens while a profile field is empty. -/
theorem topTracks_iff (P : Platform) (es : List (SignUpEvent P)) :
    Throughout (SignUpFlow.next P) TopTracks (some (SignUpFlow.start P)) es ↔
      EachStep (SignUpFlow.next P) PushesIncomplete (some (SignUpFlow.start P)) es := by
  refine throughout_iff_eachStep (Q := fun o => ∀ f, o = some f → FlowInv Eq f)
    ?_ (fun _ _ => flowInv_next) (fun _ _ => pushesIncomplete_of_topTracks) ?_ es
  · intro o h
    cases o with
    | none => trivial
    | some f => exact topTracks_of_flowInv (h f rfl)
  · rintro f ⟨⟩
    exact FlowInv.start P

/-- The first page filled in correctly and the next button tapped. -/
def openUserInfo : List (SignUpEvent .gregorian) :=
  [.input (.email "a@b.co"), .input (.password "abcdef1"),
   .input (.checkPassword "abcdef1"), .input (.next ⟨2022, 9, 2⟩)]

/-- The second page filled in completely. -/
def fillUserInfo : List (SignUpEvent .gregorian) :=
  [.input (.name "name"), .input (.nickName "nick"), .input (.pick ⟨2000, 1, 2⟩),
   .input .done]

/-- Going back from a complete page and forward again ends with every
field filled in and the button disabled. -/
theorem button_forgets_profile :
    ¬ TopTracks (run (SignUpFlow.next .gregorian) (some (SignUpFlow.start .gregorian))
        (openUserInfo ++ fillUserInfo ++ [.input .back, .input (.next ⟨2022, 9, 2⟩)])) := by
  intro h
  have hrun : run (SignUpFlow.next .gregorian) (some (SignUpFlow.start .gregorian))
      (openUserInfo ++ fillUserInfo ++ [.input .back, .input (.next ⟨2022, 9, 2⟩)])
      = some
        { form :=
            { viewModel :=
                { email := "a@b.co", password := "abcdef1", checkPassword := "abcdef1",
                  emailValidSubject := true, passwordValidSubject := true,
                  checkPasswordValidSubject := true, name := "name", nickName := "nick",
                  birthDay := "2000년 01월 02일" }
              latest := ⟨some true, some true, some true⟩
              userInfoButtonEnabled := true }
          pages :=
            [{ nameText := "name", nickNameText := "nick",
               birthdayText := "2022년 09월 02일", signUpButtonEnabled := false,
               listening := true }] } := by decide
  rw [hrun] at h
  have htop := (h _ _ rfl).mpr
  revert htop
  decide

end BetweenUS.Rogin
