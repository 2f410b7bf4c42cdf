/-
BetweenUS.Rogin.ValidatorTheorems — which strings `validateEmail` and
`validatePassword` accept, said without regular expressions.

The email expression is AMBIGUOUS: its domain class contains the dot that
separates the last label and the letters that follow it, so in a longer
domain several dots are worth trying. `emailCheck` does not search. It
cuts at the `@`, then at the LAST dot behind it, and looks at the three
pieces. Nothing is lost by that: no class contains an `@`, and the last
piece consists of letters, so the dot of any split that matches is the
last one (`validateEmail_eq_emailCheck`).

The password expression looks ahead twice and then reads the same code
points again. `.` stops at a line terminator, so a lookahead by itself
sees the first line only; but the counted repetition has to reach the end
of the string, which is therefore ONE line (`validatePassword_iff`).
-/
import BetweenUS.Regex.Semantics
import BetweenUS.Rogin.LoginViewModel

namespace BetweenUS.Rogin

open BetweenUS.Regex

/-! ## Cutting a list at the last occurrence of an element -/

section CutLast

variable {α : Type} [DecidableEq α] {a : α}

/-- The pieces before and behind the last `a`, if there is one. -/
def cutLast (a : α) : List α → Option (List α × List α)
  | [] => none
  | b :: w =>
      match cutLast a w with
      | some (left, right) => some (b :: left, right)
      | none => if b = a then some ([], w) else none

theorem cutLast_of_not_mem {w : List α} (h : a ∉ w) : cutLast a w = none := by
  induction w with
  | nil => rfl
  | cons b w ih =>
    have hb : b ≠ a := fun hb => h (hb ▸ List.mem_cons_self)
    have hw : a ∉ w := fun hw => h (List.mem_cons_of_mem b hw)
    simp [cutLast, ih hw, hb]

theorem cutLast_append (left : List α) {right : List α} (h : a ∉ right) :
    cutLast a (left ++ a :: right) = some (left, right) := by
  induction left with
  | nil => simp [cutLast, cutLast_of_not_mem h]
  | cons b left ih => simp [cutLast, ih]

theorem eq_append_of_cutLast {w left right : List α} (h : cutLast a w = some (left, right)) :
    w = left ++ a :: right := by
  induction w generalizing left with
  | nil => simp [cutLast] at h
  | cons b w ih =>
    rw [cutLast] at h
    split at h
    · rename_i left' right' hw
      obtain ⟨rfl, rfl⟩ : b :: left' = left ∧ right' = right := by simpa using h
      rw [ih hw, List.cons_append]
    · split at h
      · rename_i hb
        obtain ⟨rfl, rfl⟩ : [] = left ∧ w = right := by simpa using h
        rw [hb, List.nil_append]
      · simp at h

end CutLast

/-! ## Email -/

/-- `[A-Z0-9a-z._%+-]`. -/
def nameChar (c : Char) : Bool := c.isAlphanum || c ∈ ['.', '_', '%', '+', '-']

/-- `[A-Za-z0-9.-]`. -/
def domainChar (c : Char) : Bool := c.isAlphanum || c ∈ ['.', '-']

/-- The address has one `@`, and the pieces before it, between it and the
last dot, and behind that dot are as they should be. -/
def emailCheck (s : String) : Bool :=
  s.toList.count '@' == 1 &&
  (cutLast '@' s.toList).any fun (name, host) =>
    !name.isEmpty && name.all nameChar &&
    (cutLast '.' host).any fun (domain, top) =>
      !domain.isEmpty && domain.all domainChar &&
      top.all Char.isAlpha && decide (2 ≤ top.length ∧ top.length ≤ 64)

/-- The pieces of a match of `emailRegex`. -/
structure EmailSplit (w name domain top : List Char) : Prop where
  eq : w = name ++ '@' :: (domain ++ '.' :: top)
  name_ne : name ≠ []
  name_all : ∀ c ∈ name, nameChar c = true
  domain_ne : domain ≠ []
  domain_all : ∀ c ∈ domain, domainChar c = true
  top_all : ∀ c ∈ top, c.isAlpha = true
  two_le : 2 ≤ top.length
  le_max : top.length ≤ 64

theorem wellFormed_emailRegex : emailRegex.WellFormed := by
  simp [emailRegex, Re.WellFormed]

theorem validateEmail_iff_split (s : String) :
    validateEmail s = true ↔ ∃ name domain top, EmailSplit s.toList name domain top := by
  unfold validateEmail
  rw [matchesWhole_iff wellFormed_emailRegex]
  simp only [emailRegex, matches_seq, matches_rep_cls, matches_cls, asciiLetter_eq_isAlpha,
    asciiDigit_eq_isDigit, Option.mem_some, forall_eq']
  constructor
  · rintro ⟨_, ⟨name, hs, hname, hnameLen, _⟩, _, ⟨_, hat, rfl⟩, _,
      ⟨domain, rfl, hdomain, hdomainLen, _⟩, _, ⟨_, hdot, rfl⟩, top, rfl, htop, hmin, hmax⟩
    rw [beq_iff_eq] at hat hdot
    rw [hat, hdot, List.append_nil] at hs
    exact ⟨name, domain, top, hs, List.length_pos_iff.mp hnameLen, hname,
      List.length_pos_iff.mp hdomainLen, hdomain, htop, hmin, hmax⟩
  · rintro ⟨name, domain, top, h⟩
    exact ⟨_, ⟨name, h.eq, h.name_all, List.length_pos_iff.mpr h.name_ne, by simp⟩,
      _, ⟨'@', rfl, rfl⟩, _,
      ⟨domain, rfl, h.domain_all, List.length_pos_iff.mpr h.domain_ne, by simp⟩,
      _, ⟨'.', rfl, rfl⟩, top, (List.append_nil top).symm, h.top_all, h.two_le,
      h.le_max⟩

namespace EmailSplit

variable {w name domain top : List Char}

theorem at_not_mem_name (h : EmailSplit w name domain top) : '@' ∉ name :=
  fun hmem => absurd (h.name_all _ hmem) (by decide)

theorem at_not_mem_host (h : EmailSplit w name domain top) : '@' ∉ domain ++ '.' :: top := by
  intro hmem
  rcases List.mem_append.mp hmem with hmem | hmem
  · exact absurd (h.domain_all _ hmem) (by decide)
  · rcases List.mem_cons.mp hmem with hmem | hmem
    · exact absurd hmem (by decide)
    · exact absurd (h.top_all _ hmem) (by decide)

theorem dot_not_mem_top (h : EmailSplit w name domain top) : '.' ∉ top :=
  fun hmem => absurd (h.top_all _ hmem) (by decide)

theorem count_at (h : EmailSplit w name domain top) : w.count '@' = 1 := by
  rw [h.eq, List.count_append, List.count_cons_self,
    List.count_eq_zero.mpr h.at_not_mem_name, List.count_eq_zero.mpr h.at_not_mem_host]

/-- Every split that matches is the one the two cuts find. -/
theorem cuts (h : EmailSplit w name domain top) :
    cutLast '@' w = some (name, domain ++ '.' :: top) ∧
      cutLast '.' (domain ++ '.' :: top) = some (domain, top) := by
  refine ⟨?_, cutLast_append domain h.dot_not_mem_top⟩
  rw [h.eq]
  exact cutLast_append name h.at_not_mem_host

end EmailSplit

/-- **`validateEmail` accepts exactly what the two cuts accept.** -/
theorem validateEmail_eq_emailCheck (s : String) : validateEmail s = emailCheck s := by
  rw [Bool.eq_iff_iff, validateEmail_iff_split]
  constructor
  · rintro ⟨name, domain, top, h⟩
    obtain ⟨hat, hdot⟩ := h.cuts
    simpa [emailCheck, h.count_at, hat, hdot, h.name_ne, h.domain_ne, h.two_le, h.le_max]
      using And.intro h.name_all (And.intro h.domain_all h.top_all)
  · intro h
    simp only [emailCheck, Bool.and_eq_true, Option.any_eq_true] at h
    obtain ⟨_, ⟨name, host⟩, hat, ⟨hnameNe, hname⟩, ⟨domain, top⟩, hdot,
      ⟨⟨hdomainNe, hdomain⟩, htop⟩, hlen⟩ := h
    obtain ⟨hmin, hmax⟩ := of_decide_eq_true hlen
    have hhost : host = domain ++ '.' :: top := eq_append_of_cutLast hdot
    have hs : s.toList = name ++ '@' :: (domain ++ '.' :: top) := by
      rw [eq_append_of_cutLast hat, hhost]
    exact ⟨name, domain, top, hs, by simpa using hnameNe, List.all_eq_true.mp hname,
      by simpa using hdomainNe, List.all_eq_true.mp hdomain, List.all_eq_true.mp htop,
      hmin, hmax⟩

/-! Only the label behind the LAST dot is held to the letters. -/
example : validateEmail "a@b.c1.de" = true ∧ validateEmail "a@b.de.c1" = false := by decide

/-! ## Password -/

theorem wellFormed_passwordRegex : passwordRegex.WellFormed := by
  simp [passwordRegex, Re.WellFormed]

theorem anyButLineTerminator_iff (c : Char) :
    anyButLineTerminator c = true ↔ lineTerminator c = false := by
  simp [anyButLineTerminator]

/-- **`validatePassword` accepts exactly** the strings of 7 to 50 code
points, none of them a line terminator, with an ASCII letter and an ASCII
digit among them. -/
theorem validatePassword_iff (s : String) :
    validatePassword s = true ↔
      7 ≤ s.length ∧ s.length ≤ 50 ∧ (∀ c ∈ s.toList, lineTerminator c = false) ∧
        (∃ c ∈ s.toList, c.isAlpha = true) ∧ ∃ c ∈ s.toList, c.isDigit = true := by
  unfold validatePassword
  rw [matchesWhole_iff wellFormed_passwordRegex]
  simp only [passwordRegex, matches_seq_start, matches_seq_look, matches_rep_cls_nil,
    Option.mem_some, forall_eq', String.length_toList]
  simp only [← anyButLineTerminator_iff, ← asciiLetter_eq_isAlpha, ← asciiDigit_eq_isDigit]
  constructor
  · -- the repetition covers the whole string, so the lookaheads see all of it
    rintro ⟨_, hletter, hdigit, hline, hmin, hmax⟩
    exact ⟨hmin, hmax, hline, (exists_matches_rep_seq_cls hline).mp hletter,
      (exists_matches_rep_seq_cls hline).mp hdigit⟩
  · rintro ⟨hmin, hmax, hline, hletter, hdigit⟩
    exact ⟨trivial, (exists_matches_rep_seq_cls hline).mpr hletter,
      (exists_matches_rep_seq_cls hline).mpr hdigit, hline, hmin, hmax⟩

/-! A digit behind a line break does not help, nor does a break at the end. -/
example : validatePassword "abcdef\n1" = false ∧ validatePassword "abcdef1\n" = false := by decide

end BetweenUS.Rogin
