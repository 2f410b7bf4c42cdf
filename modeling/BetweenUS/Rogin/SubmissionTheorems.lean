/-
BetweenUS.Rogin.SubmissionTheorems — what the sign-up button submits,
against what the page it stands on displays.

A text field of a page and the view model drift apart in two ways.

* The birthday reaches the view model only on Done. The picker writes
  the text field on every move, and once by itself when the page loads.
* Pages over pages: a page that was covered still displays what it
  displayed then, while the page above it wrote the shared view model.

`Watch` follows both, from the inputs alone: for each open page it keeps
which of the three texts were the LAST to be written to the view model.
It is a history variable. Nothing in the code reads it, and
`watchedNext` runs it beside the screen without touching the screen.
`WatchInv` is what a watch is good for: a text it vouches for is the view
model's. A tap with all three texts vouched for then submits what is
displayed (`submitted_eq_shown`).
-/
import BetweenUS.Rogin.SignUpFlowTheorems
import Mathlib.Data.List.Forall2

namespace BetweenUS.Rogin

open BetweenUS.Model BetweenUS.Manager BetweenUS.Runs SignUpFlow

/-! ## Submissions -/

/-- A call of `AuthManager.signUp`, with the page whose button made it. -/
structure Submission where
  email : String
  password : String
  user : User
  page : UserInfoPage
  deriving DecidableEq, Repr

def submission {P : Platform} : Option SignUpFlow → SignUpEvent P → Option Submission
  | some f, .input i =>
      match f.request i, f.pages with
      | some (.signUp email password user), page :: _ => some ⟨email, password, user, page⟩
      | _, _ => none
  | _, _ => none

/-- A submission is a delivered tap of the top page's button. -/
theorem submission_eq_some {P : Platform} {o : Option SignUpFlow} {e : SignUpEvent P}
    {sub : Submission} (h : submission o e = some sub) :
    ∃ f rest, o = some f ∧ e = .input .signUp ∧ f.delivers (P := P) .signUp = true ∧
      f.pages = sub.page :: rest ∧ sub.email = f.viewModel.email ∧
      sub.password = f.viewModel.password ∧ sub.user = f.viewModel.signUpUser := by
  cases o with
  | none => simp [submission] at h
  | some f =>
    cases e with
    | subject e => simp [submission] at h
    | input i =>
      cases i with
      | signUp =>
        cases hd : f.delivers (P := P) .signUp with
        | false => simp [submission, request, hd] at h
        | true =>
          cases hp : f.pages with
          | nil => simp [submission, request, hd, hp] at h
          | cons p rest =>
            simp only [submission, request, hd, hp, if_true, Option.some.injEq] at h
            subst h
            exact ⟨f, rest, rfl, rfl, hd, hp, rfl, rfl, rfl⟩
      | _ => simp [submission, request] at h

/-! ## The watch -/

/-- Which of a page's texts were the last to be written to the view
model. -/
structure Watch where
  name : Bool
  nickName : Bool
  birthday : Bool
  deriving DecidableEq, Repr

/-- An input changes the watch of the top page by `top` and the ones of
the covered pages by `below`. -/
def watchTop (top below : Watch → Watch) : List Watch → List Watch
  | [] => []
  | w :: ws => top w :: ws.map below

def watchName : List Watch → List Watch :=
  watchTop (fun w => { w with name := true }) (fun w => { w with name := false })

def watchNickName : List Watch → List Watch :=
  watchTop (fun w => { w with nickName := true }) (fun w => { w with nickName := false })

/-- What a delivered input does to the watches, the top page's first. -/
def watch {P : Platform} (ws : List Watch) : SignUpInput P → List Watch
  -- a new page copies name and nickname, and its picker overwrites the birthday
  | .next _ => ⟨true, true, false⟩ :: ws
  | .name _ => watchName ws
  | .nickName _ => watchNickName ws
  | .touchOutside (some .name) => watchName ws
  | .touchOutside (some .nickName) => watchNickName ws
  | .birthday _ => watchTop (fun w => { w with birthday := false }) id ws
  | .pick _ => watchTop (fun w => { w with birthday := false }) id ws
  | .done =>
      watchTop (fun w => { w with birthday := true }) (fun w => { w with birthday := false }) ws
  | .back => ws.tail
  | _ => ws

/-- The screen with its watches. -/
def watchedNext (P : Platform) (s : Option SignUpFlow × List Watch) (e : SignUpEvent P) :
    Option SignUpFlow × List Watch :=
  (SignUpFlow.next P s.1 e,
    match s.1, e with
    | some f, .input i => if f.delivers i then watch s.2 i else s.2
    | _, _ => s.2)

/-- Taps are made only on a page all of whose texts are vouched for. -/
def SettledTaps {P : Platform} (s : Option SignUpFlow × List Watch) (e : SignUpEvent P) :
    Prop :=
  submission s.1 e ≠ none → s.2.head? = some ⟨true, true, true⟩

instance {P : Platform} (s : Option SignUpFlow × List Watch) (e : SignUpEvent P) :
    Decidable (SettledTaps s e) :=
  inferInstanceAs (Decidable (_ → _))

/-! ## What a watch is good for -/

/-- The page displays what the view model holds, where the watch says so. -/
structure Shows (vm : SignUpViewModel) (p : UserInfoPage) (w : Watch) : Prop where
  name : w.name = true → p.nameText = vm.name
  nickName : w.nickName = true → p.nickNameText = vm.nickName
  birthday : w.birthday = true → p.birthdayText = vm.birthDay

/-- Every open page has a watch and displays what it says. -/
structure WatchInv (f : SignUpFlow) (ws : List Watch) : Prop where
  listening : ∀ p ∈ f.pages, p.listening = true
  shows : List.Forall₂ (Shows f.viewModel) f.pages ws

theorem forall₂_shows_map {vm vm' : SignUpViewModel} {ps : List UserInfoPage}
    {ws : List Watch} {g : UserInfoPage → UserInfoPage} {k : Watch → Watch}
    (h : List.Forall₂ (Shows vm) ps ws)
    (hstep : ∀ p w, Shows vm p w → Shows vm' (g p) (k w)) :
    List.Forall₂ (Shows vm') (ps.map g) (ws.map k) := by
  rw [List.forall₂_map_left_iff, List.forall₂_map_right_iff]
  exact h.imp hstep

/-- Writing the view model from the top page. `g` is what happens to the
top page's texts first; `top` and `below` say what may still be vouched
for afterwards. -/
theorem WatchInv.write {f : SignUpFlow} {ws : List Watch} (h : WatchInv f ws)
    (g : UserInfoPage → UserInfoPage) (hl : ∀ p, (g p).listening = p.listening)
    (vm : SignUpViewModel) (top below : Watch → Watch)
    (htop : ∀ p w rest, f.pages = p :: rest → Shows f.viewModel p w →
      Shows vm (g p) (top w))
    (hbelow : ∀ p w, Shows f.viewModel p w → Shows vm p (below w)) :
    WatchInv ((f.modifyTop g).didSet vm) (watchTop top below ws) := by
  have hlist : ∀ p ∈ (f.modifyTop g).pages, p.listening = true := by
    intro p hp
    unfold SignUpFlow.modifyTop at hp
    split at hp
    · exact h.listening p hp
    · rename_i q rest heq
      rcases List.mem_cons.mp hp with rfl | hp
      · rw [hl]; exact h.listening q (by simp [heq])
      · exact h.listening p (by simp [heq, hp])
  have hpages := pages_didSet hlist vm
  refine ⟨?_, ?_⟩
  · intro p hp
    rw [hpages] at hp
    obtain ⟨q, hq, rfl⟩ := List.mem_map.mp hp
    exact hlist q hq
  · have hshows := h.shows
    rw [hpages]
    unfold SignUpFlow.modifyTop
    cases hp : f.pages with
    | nil =>
      rw [hp] at hshows
      cases hshows
      simp only [hp, List.map_nil]
      exact List.Forall₂.nil
    | cons p rest =>
      rw [hp] at hshows
      obtain ⟨w, ws', hw, hrest, rfl⟩ := List.forall₂_cons_left_iff.mp hshows
      simp only [List.map_cons]
      refine List.Forall₂.cons ?_ (forall₂_shows_map hrest ?_)
      · obtain ⟨h1, h2, h3⟩ := htop p w rest hp hw
        exact ⟨h1, h2, h3⟩
      · intro q w' hq
        obtain ⟨h1, h2, h3⟩ := hbelow q w' hq
        exact ⟨h1, h2, h3⟩

/-- A new birthday text that is not written to the view model. -/
theorem WatchInv.showBirthday {f : SignUpFlow} {ws : List Watch} (h : WatchInv f ws)
    (text : String) :
    WatchInv (f.modifyTop fun p => { p with birthdayText := text })
      (watchTop (fun w => { w with birthday := false }) id ws) := by
  have hshows := h.shows
  unfold SignUpFlow.modifyTop
  cases hp : f.pages with
  | nil =>
    rw [hp] at hshows
    cases hshows
    exact ⟨h.listening, by rw [hp]; exact List.Forall₂.nil⟩
  | cons p rest =>
    rw [hp] at hshows
    obtain ⟨w, ws', hw, hrest, rfl⟩ := List.forall₂_cons_left_iff.mp hshows
    refine ⟨?_, ?_⟩
    · intro q hq
      rcases List.mem_cons.mp hq with rfl | hq
      · exact h.listening p (by simp [hp])
      · exact h.listening q (by simp [hp, hq])
    · simp only [watchTop, List.map_id_fun, id_eq]
      exact List.Forall₂.cons ⟨hw.name, hw.nickName, by simp⟩ hrest

theorem WatchInv.writeName {f : SignUpFlow} {ws : List Watch} (h : WatchInv f ws)
    (text : String) :
    WatchInv ((f.modifyTop fun p => { p with nameText := text }).setName text)
      (watchName ws) := by
  have hvm : (f.modifyTop fun p => { p with nameText := text }).viewModel = f.viewModel := by
    simp [viewModel]
  unfold SignUpFlow.setName
  rw [hvm]
  apply h.write (fun p => { p with nameText := text }) (fun _ => rfl)
  · intro p w rest _ hs
    exact ⟨fun _ => rfl, hs.nickName, hs.birthday⟩
  · intro p w hs
    exact ⟨by simp, hs.nickName, hs.birthday⟩

theorem WatchInv.writeNickName {f : SignUpFlow} {ws : List Watch} (h : WatchInv f ws)
    (text : String) :
    WatchInv ((f.modifyTop fun p => { p with nickNameText := text }).setNickName text)
      (watchNickName ws) := by
  have hvm : (f.modifyTop fun p => { p with nickNameText := text }).viewModel
      = f.viewModel := by
    simp [viewModel]
  unfold SignUpFlow.setNickName
  rw [hvm]
  apply h.write (fun p => { p with nickNameText := text }) (fun _ => rfl)
  · intro p w rest _ hs
    exact ⟨hs.name, fun _ => rfl, hs.birthday⟩
  · intro p w hs
    exact ⟨hs.name, by simp, hs.birthday⟩

/-- Writing a text back that the top page displays already. -/
theorem modifyTop_self {f : SignUpFlow} {p : UserInfoPage} {rest : List UserInfoPage}
    (hp : f.pages = p :: rest) {g : UserInfoPage → UserInfoPage} (hg : g p = p) :
    f.modifyTop g = f := by
  unfold SignUpFlow.modifyTop
  rw [hp]
  simp only [hg]
  rw [← hp]

theorem WatchInv.done {f : SignUpFlow} {ws : List Watch} (h : WatchInv f ws)
    (hne : f.pages ≠ []) :
    WatchInv f.doneSelectDate (watchTop (fun w => { w with birthday := true })
      (fun w => { w with birthday := false }) ws) := by
  cases hp : f.pages with
  | nil => exact absurd hp hne
  | cons p rest =>
    have hself : f.modifyTop id = f := modifyTop_self hp rfl
    have hw := h.write id (fun _ => rfl) { f.viewModel with birthDay := p.birthdayText }
      (fun w => { w with birthday := true }) (fun w => { w with birthday := false })
      (by
        intro q w rest' hq hs
        obtain ⟨rfl, -⟩ : p = q ∧ rest = rest' := by simpa [hp] using hq
        exact ⟨hs.name, hs.nickName, fun _ => rfl⟩)
      (by
        intro q w hs
        exact ⟨hs.name, hs.nickName, by simp⟩)
    rw [hself] at hw
    unfold doneSelectDate
    rw [hp]
    exact hw

theorem WatchInv.push {f : SignUpFlow} {ws : List Watch} (h : WatchInv f ws)
    (P : Platform) (now : P.Date) :
    WatchInv (f.push P now) (⟨true, true, false⟩ :: ws) := by
  rw [push_eq P f now h.listening]
  refine ⟨?_, List.Forall₂.cons ⟨fun _ => rfl, fun _ => rfl, by simp⟩ ?_⟩
  · intro p hp
    rcases List.mem_cons.mp hp with rfl | hp
    · rfl
    · obtain ⟨q, hq, rfl⟩ := List.mem_map.mp hp
      exact h.listening q hq
  · rw [List.forall₂_map_left_iff]
    exact h.shows.imp fun p w hs => ⟨hs.name, hs.nickName, hs.birthday⟩

/-- Editing the first page leaves the profile fields alone. -/
theorem WatchInv.form {f : SignUpFlow} {ws : List Watch} (h : WatchInv f ws)
    (form : SignUpForm) (hnil : f.pages = []) :
    WatchInv { f with form := form } ws := by
  have hshows := h.shows
  rw [hnil] at hshows
  cases hshows
  exact ⟨h.listening, by rw [hnil]; exact List.Forall₂.nil⟩

/-- One handler keeps the watches right. -/
theorem WatchInv.handle {P : Platform} {f f' : SignUpFlow} {ws : List Watch}
    (h : WatchInv f ws) {i : SignUpInput P} (hd : f.delivers i = true)
    (hf : f.handle P i = some f') : WatchInv f' (watch ws i) := by
  cases i with
  | email text => cases hf; exact h.form _ (pages_eq_nil_of_delivers hd)
  | password text => cases hf; exact h.form _ (pages_eq_nil_of_delivers hd)
  | checkPassword text => cases hf; exact h.form _ (pages_eq_nil_of_delivers hd)
  | next now => cases hf; exact h.push P now
  | cancel => cases hf
  | name text => cases hf; exact h.writeName text
  | nickName text => cases hf; exact h.writeNickName text
  | birthday text =>
    cases hf
    exact h.showBirthday _
  | pick date =>
    cases hf
    exact h.showBirthday _
  | done =>
    cases hf
    exact h.done (pages_ne_nil_of_delivers hd)
  | touchOutside focus =>
    have hne : f.pages ≠ [] := pages_ne_nil_of_delivers hd
    obtain ⟨p, rest, hp⟩ := List.exists_cons_of_ne_nil hne
    cases focus with
    | none => cases hf; exact h
    | some field =>
      simp only [SignUpFlow.handle, hp] at hf
      cases field with
      | name =>
        have hw := h.writeName p.nameText
        rw [modifyTop_self hp rfl] at hw
        cases hf
        exact hw
      | nickName =>
        have hw := h.writeNickName p.nickNameText
        rw [modifyTop_self hp rfl] at hw
        cases hf
        exact hw
      | birthday => cases hf; exact h
  | back =>
    cases hf
    refine ⟨fun p hp => h.listening p (List.mem_of_mem_tail hp), ?_⟩
    have hshows := h.shows
    show List.Forall₂ _ f.pages.tail ws.tail
    revert hshows
    cases f.pages <;> cases ws <;> intro hshows <;> cases hshows
    · exact List.Forall₂.nil
    · assumption
  | signUp => cases hf; exact h
  | dismissAlert => cases hf; exact ⟨h.listening, h.shows⟩

theorem WatchInv.hear {f f' : SignUpFlow} {ws : List Watch} (h : WatchInv f ws)
    {e : SubjectEvent} (hf : f.hear e = some f') : WatchInv f' ws := by
  unfold SignUpFlow.hear at hf
  split at hf
  · split at hf
    · cases hf; exact ⟨h.listening, h.shows⟩
    · cases hf
    · cases hf; exact ⟨h.listening, h.shows⟩
    · cases hf; exact h
  · cases hf; exact h

/-- One step of the watched screen. -/
theorem watchInv_next {P : Platform} {s : Option SignUpFlow × List Watch}
    {e : SignUpEvent P} (h : ∀ f, s.1 = some f → WatchInv f s.2) :
    ∀ f, (watchedNext P s e).1 = some f → WatchInv f (watchedNext P s e).2 := by
  obtain ⟨o, ws⟩ := s
  intro f' hf'
  cases o with
  | none => cases hf'
  | some f =>
    have hinv : WatchInv f ws := h f rfl
    cases e with
    | subject e => exact hinv.hear hf'
    | input i =>
      simp only [watchedNext, SignUpFlow.next, SignUpFlow.step] at hf' ⊢
      split
      · rename_i hd
        rw [if_pos hd] at hf'
        exact hinv.handle hd hf'
      · rename_i hd
        rw [if_neg hd] at hf'
        cases hf'
        exact hinv

/-! ## What is submitted -/

/-- The submitted profile is the displayed one. -/
def SubmitsShown (sub : Submission) : Prop :=
  sub.user.name = sub.page.nameText ∧ sub.user.nickName = sub.page.nickNameText ∧
    sub.user.birthday = sub.page.birthdayText

theorem submitsShown_of_watch {P : Platform} {s : Option SignUpFlow × List Watch}
    {e : SignUpEvent P} {sub : Submission} (h : ∀ f, s.1 = some f → WatchInv f s.2)
    (hsettled : SettledTaps s e) (hsub : submission s.1 e = some sub) :
    SubmitsShown sub := by
  obtain ⟨f, rest, ho, -, -, hpages, -, -, huser⟩ := submission_eq_some hsub
  obtain ⟨ws, hws⟩ := List.head?_eq_some_iff.mp (hsettled (by simp [hsub]))
  have hshows := (h f ho).shows
  rw [hpages, hws, List.forall₂_cons] at hshows
  rw [SubmitsShown, huser]
  exact ⟨(hshows.1.name rfl).symm, (hshows.1.nickName rfl).symm,
    (hshows.1.birthday rfl).symm⟩

/-- The watch does not disturb the screen: a watched run submits what the
run submits. -/
theorem outputs_watchedNext (P : Platform) (s : Option SignUpFlow × List Watch)
    (es : List (SignUpEvent P)) :
    outputs (watchedNext P) (fun s e => submission s.1 e) s es
      = outputs (SignUpFlow.next P) submission s.1 es := by
  induction es generalizing s with
  | nil => rfl
  | cons e es ih => simp only [outputs]; rw [ih]; rfl

/-- **In every run whose taps are all made on settled texts, what is
submitted is what is shown.** -/
theorem submitted_eq_shown (P : Platform) (es : List (SignUpEvent P))
    (hes : EachStep (watchedNext P) SettledTaps (some (SignUpFlow.start P), []) es) :
    ∀ sub ∈ outputs (SignUpFlow.next P) submission (some (SignUpFlow.start P)) es,
      SubmitsShown sub := by
  rw [← outputs_watchedNext P (some (SignUpFlow.start P), []) es]
  refine forall_outputs (I := fun s => ∀ f, s.1 = some f → WatchInv f s.2)
    (fun s e h _ => watchInv_next h) (fun s e sub h hC => submitsShown_of_watch h hC) ?_ hes
  rintro f ⟨⟩
  exact ⟨by simp [SignUpFlow.start], List.Forall₂.nil⟩

/-- A tap right after Done. -/
theorem submitted_eq_shown_after_done :
    EachStep (watchedNext .gregorian) SettledTaps (some (SignUpFlow.start .gregorian), [])
        (openUserInfo ++ fillUserInfo ++ [.input .signUp]) ∧
      ∀ sub ∈ outputs (SignUpFlow.next .gregorian) submission
          (some (SignUpFlow.start .gregorian))
          (openUserInfo ++ fillUserInfo ++ [.input .signUp]),
        SubmitsShown sub :=
  ⟨by decide, submitted_eq_shown .gregorian _ (by decide)⟩

/-- The picker moved after Done and the keyboard dismissed by a touch
outside: one birthday is shown and another one submitted. -/
theorem unsettled_birthday_submitted :
    ∃ sub ∈ outputs (SignUpFlow.next .gregorian) submission
        (some (SignUpFlow.start .gregorian))
        (openUserInfo ++ fillUserInfo ++
          [.input (.pick ⟨2001, 3, 4⟩), .input (.touchOutside (some .birthday)),
           .input .signUp]),
      ¬ SubmitsShown sub := by
  have hsub : outputs (SignUpFlow.next .gregorian) submission
      (some (SignUpFlow.start .gregorian))
      (openUserInfo ++ fillUserInfo ++
        [.input (.pick ⟨2001, 3, 4⟩), .input (.touchOutside (some .birthday)),
         .input .signUp])
      = [{ email := "a@b.co", password := "abcdef1",
           user := { id := "", email := "a@b.co", name := "name", nickName := "nick",
                     birthday := "2000년 01월 02일", content := none }
           page := { nameText := "name", nickNameText := "nick",
                     birthdayText := "2001년 03월 04일", signUpButtonEnabled := true,
                     listening := true } }] := by decide
  refine ⟨_, by rw [hsub]; exact List.mem_singleton.mpr rfl, ?_⟩
  rintro ⟨-, -, hbirthday⟩
  revert hbirthday
  decide

end BetweenUS.Rogin
