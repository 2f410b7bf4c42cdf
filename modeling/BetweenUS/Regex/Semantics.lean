/-
BetweenUS.Regex.Semantics — what a regular expression means, and that the
backtracking matcher `ends` computes it.

`Matches n r w w'` says that `r` matches the piece of `w` in front of the
suffix `w'`, in an input of `n` code points. It is the textbook reading:
a concatenation matches if SOME split does, a repetition if SOME number
of rounds within its bounds does, and nothing is said about how the split
is found. `mem_ends_iff` is the correctness of the matcher for EVERY
regular expression whose bounds are in order.

The one place where the matcher and the meaning differ in shape is the
unbounded repetition, which the matcher cuts off after as many rounds as
there are code points left. `Rounds.shorten` justifies it: a round leaves
a suffix, hence either consumes something or changes nothing, and the
rounds of the second kind can be dropped.

For the repetition of a single class, `matches_rep_cls` says the same
without rounds: a piece of the class, of a length within the bounds.
-/
import BetweenUS.Regex.Syntax

namespace BetweenUS.Regex

/-! ## Rounds of a relation -/

/-- `k` steps of `R` in a row. -/
def Rounds {α : Type} (R : α → α → Prop) : Nat → α → α → Prop
  | 0, w, w' => w' = w
  | k + 1, w, w' => ∃ v, R w v ∧ Rounds R k v w'

section Rounds

variable {α : Type} {R : α → α → Prop}

theorem rounds_add (j k : Nat) (w w' : α) :
    Rounds R (j + k) w w' ↔ ∃ v, Rounds R j w v ∧ Rounds R k v w' := by
  induction j generalizing w with
  | zero => simp [Rounds]
  | succ j ih =>
    rw [Nat.succ_add]
    simp only [Rounds, ih]
    constructor
    · rintro ⟨u, hu, v, huv, hv⟩
      exact ⟨v, ⟨u, hu, huv⟩, hv⟩
    · rintro ⟨v, ⟨u, hu, huv⟩, hv⟩
      exact ⟨u, hu, v, huv, hv⟩

end Rounds

section Suffix

variable {R : List Char → List Char → Prop}

/-- Steps that leave a suffix leave a suffix together. -/
theorem Rounds.suffix (hR : ∀ w v, R w v → v <:+ w) {k : Nat} {w w' : List Char}
    (h : Rounds R k w w') : w' <:+ w := by
  induction k generalizing w with
  | zero =>
    have hw : w' = w := h
    exact hw ▸ List.suffix_rfl
  | succ k ih =>
    obtain ⟨v, hwv, hv⟩ := h
    exact (ih hv).trans (hR w v hwv)

/-- Of steps that leave a suffix, no more are needed than there are code
points. -/
theorem Rounds.shorten (hR : ∀ w v, R w v → v <:+ w) {k : Nat} {w w' : List Char}
    (h : Rounds R k w w') : ∃ j ≤ w.length, Rounds R j w w' := by
  induction k generalizing w with
  | zero => exact ⟨0, Nat.zero_le _, h⟩
  | succ k ih =>
    obtain ⟨v, hwv, hv⟩ := h
    obtain ⟨j, hj, hrest⟩ := ih hv
    have hsuffix := hR w v hwv
    by_cases hlen : v.length = w.length
    · -- the first round consumed nothing and is dropped
      have hsame : v = w := hsuffix.eq_of_length hlen
      rw [hsame] at hj hrest
      exact ⟨j, hj, hrest⟩
    · have hle := hsuffix.length_le
      exact ⟨j + 1, by omega, v, hwv, hrest⟩

end Suffix

/-! ## Meaning -/

/-- `r` matches what stands in `w` before the suffix `w'`. -/
def Matches (n : Nat) : Re → List Char → List Char → Prop
  | .cls p, w, w' => ∃ c, p c = true ∧ w = c :: w'
  | .seq r s, w, w' => ∃ v, Matches n r w v ∧ Matches n s v w'
  | .rep r min max, w, w' =>
      ∃ k, min ≤ k ∧ (∀ m ∈ max, k ≤ m) ∧ Rounds (Matches n r) k w w'
  | .look r, w, w' => w' = w ∧ ∃ v, Matches n r w v
  | .start, w, w' => w' = w ∧ w.length = n

section Equations

/-! One equation per constructor, so that a proof unfolds ONE application
and leaves `Matches n r` under `Rounds` as it stands. -/

variable (n : Nat) (w w' : List Char)

theorem matches_cls (p : Char → Bool) :
    Matches n (.cls p) w w' ↔ ∃ c, p c = true ∧ w = c :: w' := Iff.rfl

theorem matches_seq (r s : Re) :
    Matches n (.seq r s) w w' ↔ ∃ v, Matches n r w v ∧ Matches n s v w' := Iff.rfl

theorem matches_rep (r : Re) (min : Nat) (max : Option Nat) :
    Matches n (.rep r min max) w w' ↔
      ∃ k, min ≤ k ∧ (∀ m ∈ max, k ≤ m) ∧ Rounds (Matches n r) k w w' := Iff.rfl

theorem matches_look (r : Re) :
    Matches n (.look r) w w' ↔ w' = w ∧ ∃ v, Matches n r w v := Iff.rfl

theorem matches_start : Matches n .start w w' ↔ w' = w ∧ w.length = n := Iff.rfl

end Equations

/-- The bounds of every repetition are in order. -/
def Re.WellFormed : Re → Prop
  | .cls _ => True
  | .seq r s => r.WellFormed ∧ s.WellFormed
  | .rep r min max => r.WellFormed ∧ ∀ m ∈ max, min ≤ m
  | .look r => r.WellFormed
  | .start => True

theorem Matches.suffix {n : Nat} {r : Re} {w w' : List Char} (h : Matches n r w w') :
    w' <:+ w := by
  induction r generalizing w w' with
  | cls p =>
    obtain ⟨c, _, hw⟩ := h
    rw [hw]
    exact List.suffix_cons c w'
  | seq r s ihr ihs =>
    obtain ⟨v, hr, hs⟩ := h
    exact (ihs hs).trans (ihr hr)
  | rep r min max ih =>
    obtain ⟨k, _, _, hk⟩ := h
    exact hk.suffix fun w v hv => ih hv
  | look r _ =>
    exact h.1 ▸ List.suffix_rfl
  | start =>
    exact h.1 ▸ List.suffix_rfl

/-! ## The matcher computes the meaning -/

section Ends

variable {f : List Char → List (List Char)} {R : List Char → List Char → Prop}

theorem mem_exactly (hf : ∀ w w', w' ∈ f w ↔ R w w') (k : Nat) (w w' : List Char) :
    w' ∈ exactly f k w ↔ Rounds R k w w' := by
  induction k generalizing w with
  | zero => simp [exactly, Rounds]
  | succ k ih => simp only [exactly, Rounds, List.mem_flatMap, hf, ih]

theorem mem_upTo (hf : ∀ w w', w' ∈ f w ↔ R w w') (k : Nat) (w w' : List Char) :
    w' ∈ upTo f k w ↔ ∃ j ≤ k, Rounds R j w w' := by
  induction k generalizing w with
  | zero => simp [upTo, Rounds]
  | succ k ih =>
    simp only [upTo, List.mem_cons, List.mem_flatMap, hf, ih]
    constructor
    · rintro (hw | ⟨v, hv, j, hj, hrest⟩)
      · exact ⟨0, Nat.zero_le _, hw⟩
      · exact ⟨j + 1, by omega, v, hv, hrest⟩
    · rintro ⟨j, hj, h⟩
      cases j with
      | zero => exact .inl h
      | succ j =>
        obtain ⟨v, hv, hrest⟩ := h
        exact .inr ⟨v, hv, j, by omega, hrest⟩

end Ends

/-- A bounded repetition is `min` rounds and then at most `m - min` more. -/
theorem exists_rounds_bounded {R : List Char → List Char → Prop} {min m : Nat}
    (h : min ≤ m) (w w' : List Char) :
    (∃ k, min ≤ k ∧ k ≤ m ∧ Rounds R k w w') ↔
      ∃ v, Rounds R min w v ∧ ∃ j ≤ m - min, Rounds R j v w' := by
  constructor
  · rintro ⟨k, hmin, hmax, hk⟩
    obtain ⟨j, rfl⟩ := Nat.exists_eq_add_of_le hmin
    obtain ⟨v, hv, hrest⟩ := (rounds_add min j w w').mp hk
    exact ⟨v, hv, j, by omega, hrest⟩
  · rintro ⟨v, hv, j, hj, hrest⟩
    exact ⟨min + j, by omega, by omega, (rounds_add min j w w').mpr ⟨v, hv, hrest⟩⟩

/-- An unbounded repetition is `min` rounds and then at most one for each
code point that is left. -/
theorem exists_rounds_unbounded {R : List Char → List Char → Prop}
    (hR : ∀ w v, R w v → v <:+ w) (min : Nat) (w w' : List Char) :
    (∃ k, min ≤ k ∧ Rounds R k w w') ↔
      ∃ v, Rounds R min w v ∧ ∃ j ≤ v.length, Rounds R j v w' := by
  constructor
  · rintro ⟨k, hmin, hk⟩
    obtain ⟨j, rfl⟩ := Nat.exists_eq_add_of_le hmin
    obtain ⟨v, hv, hrest⟩ := (rounds_add min j w w').mp hk
    exact ⟨v, hv, hrest.shorten hR⟩
  · rintro ⟨v, hv, j, _, hrest⟩
    exact ⟨min + j, by omega, (rounds_add min j w w').mpr ⟨v, hv, hrest⟩⟩

/-- **The matcher is correct**: the ends it lists are exactly the suffixes
a match can leave. -/
theorem mem_ends_iff (n : Nat) {r : Re} (hr : r.WellFormed) (w w' : List Char) :
    w' ∈ ends n r w ↔ Matches n r w w' := by
  induction r generalizing w w' with
  | cls p =>
    rw [matches_cls]
    cases w with
    | nil => simp [ends]
    | cons c w =>
      by_cases hp : p c = true
      · simp only [ends, if_pos hp, List.mem_singleton]
        constructor
        · rintro rfl
          exact ⟨c, hp, rfl⟩
        · rintro ⟨d, _, hcons⟩
          injection hcons with _ hw
          exact hw.symm
      · simp only [ends, if_neg hp, List.not_mem_nil, false_iff]
        rintro ⟨d, hd, hcons⟩
        injection hcons with hcd _
        exact hp (hcd ▸ hd)
  | seq r s ihr ihs =>
    simp only [ends, matches_seq, List.mem_flatMap, ihr hr.1, ihs hr.2]
  | rep r min max ih =>
    obtain ⟨hr, hbounds⟩ := hr
    have hround := ih hr
    simp only [ends, matches_rep, List.mem_flatMap, mem_exactly hround]
    cases max with
    | none =>
      simp only [mem_upTo hround]
      simpa using (exists_rounds_unbounded (fun _ _ => Matches.suffix) min w w').symm
    | some m =>
      simp only [mem_upTo hround]
      simpa using (exists_rounds_bounded (hbounds m rfl) w w').symm
  | look r ih =>
    have hsome : (ends n r w).isEmpty = false ↔ ∃ v, Matches n r w v := by
      simp only [List.isEmpty_eq_false_iff_exists_mem, ih hr]
    simp only [matches_look, ← hsome]
    cases h : (ends n r w).isEmpty <;> simp [ends, h]
  | start =>
    by_cases h : w.length = n <;> simp [ends, matches_start, h]

/-- `SELF MATCHES`: the match leaves nothing. -/
theorem matchesWhole_iff {r : Re} (hr : r.WellFormed) (s : String) :
    matchesWhole r s = true ↔ Matches s.toList.length r s.toList [] := by
  rw [← mem_ends_iff _ hr]
  simp [matchesWhole]

/-! ## Repetition of a class -/

theorem rounds_cls (n : Nat) (p : Char → Bool) (k : Nat) (w w' : List Char) :
    Rounds (Matches n (.cls p)) k w w' ↔
      ∃ u, w = u ++ w' ∧ (∀ c ∈ u, p c = true) ∧ u.length = k := by
  induction k generalizing w with
  | zero =>
    simp only [Rounds, List.length_eq_zero_iff]
    constructor
    · rintro rfl
      exact ⟨[], rfl, by simp, rfl⟩
    · rintro ⟨_, hw, _, rfl⟩
      exact hw.symm
  | succ k ih =>
    simp only [Rounds, ih, matches_cls]
    constructor
    · rintro ⟨_, ⟨c, hc, rfl⟩, u, rfl, hu, rfl⟩
      exact ⟨c :: u, rfl, List.forall_mem_cons.mpr ⟨hc, hu⟩, rfl⟩
    · rintro ⟨u, rfl, hu, hlen⟩
      obtain ⟨c, u, rfl⟩ := List.exists_cons_of_length_eq_add_one hlen
      obtain ⟨hc, hu⟩ := List.forall_mem_cons.mp hu
      exact ⟨u ++ w', ⟨c, hc, rfl⟩, u, rfl, hu, by simpa using hlen⟩

/-- `[...]{min,max}` matches a piece of the class, of a length within the
bounds. -/
theorem matches_rep_cls (n : Nat) (p : Char → Bool) (min : Nat) (max : Option Nat)
    (w w' : List Char) :
    Matches n (.rep (.cls p) min max) w w' ↔
      ∃ u, w = u ++ w' ∧ (∀ c ∈ u, p c = true) ∧ min ≤ u.length ∧
        ∀ m ∈ max, u.length ≤ m := by
  simp only [matches_rep, rounds_cls]
  constructor
  · rintro ⟨_, hmin, hmax, u, hw, hu, rfl⟩
    exact ⟨u, hw, hu, hmin, hmax⟩
  · rintro ⟨u, hw, hu, hmin, hmax⟩
    exact ⟨u.length, hmin, hmax, u, hw, hu, rfl⟩

/-- With nothing left over, the piece is the whole input. -/
theorem matches_rep_cls_nil (n : Nat) (p : Char → Bool) (min : Nat) (max : Option Nat)
    (w : List Char) :
    Matches n (.rep (.cls p) min max) w [] ↔
      (∀ c ∈ w, p c = true) ∧ min ≤ w.length ∧ ∀ m ∈ max, w.length ≤ m := by
  simp [matches_rep_cls]

/-! ## Zero-width parts -/

/-- A lookahead is a condition on the input the rest is matched against. -/
theorem matches_seq_look (n : Nat) (r s : Re) (w w' : List Char) :
    Matches n (.seq (.look r) s) w w' ↔ (∃ v, Matches n r w v) ∧ Matches n s w w' := by
  simp only [matches_seq, matches_look]
  constructor
  · rintro ⟨_, ⟨rfl, hr⟩, hs⟩
    exact ⟨hr, hs⟩
  · rintro ⟨hr, hs⟩
    exact ⟨w, ⟨rfl, hr⟩, hs⟩

theorem matches_seq_start (n : Nat) (r : Re) (w w' : List Char) :
    Matches n (.seq .start r) w w' ↔ w.length = n ∧ Matches n r w w' := by
  simp only [matches_seq, matches_start]
  constructor
  · rintro ⟨_, ⟨rfl, hn⟩, hr⟩
    exact ⟨hn, hr⟩
  · rintro ⟨hn, hr⟩
    exact ⟨w, ⟨rfl, hn⟩, hr⟩

/-- `(?=[p]*[q])`, tried where only code points of `p` follow: one of `q`
is among them. -/
theorem exists_matches_rep_seq_cls {n : Nat} {p q : Char → Bool} {w : List Char}
    (hw : ∀ c ∈ w, p c = true) :
    (∃ v, Matches n (.seq (.rep (.cls p) 0 none) (.cls q)) w v) ↔ ∃ c ∈ w, q c = true := by
  simp only [matches_seq, matches_rep_cls, matches_cls]
  constructor
  · rintro ⟨v, _, ⟨u, rfl, _⟩, c, hc, rfl⟩
    exact ⟨c, by simp, hc⟩
  · rintro ⟨c, hmem, hc⟩
    obtain ⟨u, v, rfl⟩ := List.append_of_mem hmem
    have hu : ∀ d ∈ u, p d = true := fun d hd => hw d (List.mem_append_left _ hd)
    exact ⟨v, c :: v, ⟨u, rfl, hu, by simp, by simp⟩, c, hc, rfl⟩

/-! ## Character classes -/

theorem asciiLetter_eq_isAlpha (c : Char) : asciiLetter c = c.isAlpha := by
  have hupper : c.isUpper = between 'A' 'Z' c := Bool.decide_and _ _
  have hlower : c.isLower = between 'a' 'z' c := rfl
  show (between 'A' 'Z' c || between 'a' 'z' c) = (c.isUpper || c.isLower)
  rw [hupper, hlower]

theorem asciiDigit_eq_isDigit (c : Char) : asciiDigit c = c.isDigit := rfl

end BetweenUS.Regex
