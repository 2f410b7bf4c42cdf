/-
BetweenUS.FirebaseDatabase.FUtilitiesTheorems — `compareKey:toKey:` is a
total preorder on keys, and the keys that tie in it.

Every key has a rank whose components are compared one after the other.
⚠️ Two different keys can tie: `-0` and `00` both spell the number 0 in two
code units. A sorted dictionary cannot be made from keys that tie.
-/
import BetweenUS.FirebaseDatabase.FImmutableSortedDictionaryTheorems
import BetweenUS.FirebaseDatabase.FNode
import BetweenUS.FirebaseDatabase.FUtilities
import Mathlib

namespace BetweenUS.FirebaseDatabase

open Std (TransCmp LawfulEqCmp)

/-! ## A rank for every key -/

/-- What the comparison of two keys looks at, in order: sentinel, integer
or text; the integer; the number of code units of an integer; the code
units of a text. -/
structure KeyRank where
  kind : Nat
  integer : Int
  length : Nat
  units : List Nat
deriving DecidableEq

def KeyRank.compare : KeyRank → KeyRank → Ordering :=
  compareLex (compareOn KeyRank.kind) <|
    compareLex (compareOn KeyRank.integer) <|
      compareLex (compareOn KeyRank.length) (compareOn KeyRank.units)

def FKeyName.rank : FKeyName → KeyRank
  | .minName => ⟨0, 0, 0, []⟩
  | .maxName => ⟨3, 0, 0, []⟩
  | .name text =>
      match tryParseStringToInt text with
      | some integer => ⟨1, integer, (utf16 text).length, []⟩
      | none => ⟨2, 0, 0, utf16 text⟩

instance : TransCmp KeyRank.compare := by
  unfold KeyRank.compare
  infer_instance

/-- Two comparisons spelled out are one comparison. -/
theorem ite_eq_compare {α : Type} [LinearOrder α] (a b : α) (rest : Ordering) :
    (if b < a then .gt else if a < b then .lt else rest) = (compare a b).then rest := by
  rcases lt_trichotomy a b with h | rfl | h
  · simp [compare_lt_iff_lt.mpr h, h, h.not_gt]
  · simp
  · simp [compare_gt_iff_gt.mpr h, h]

theorem compareText_eq_rank (a b : String) :
    compareText a b = KeyRank.compare (FKeyName.rank (.name a)) (FKeyName.rank (.name b)) := by
  cases ha : tryParseStringToInt a with
  | none =>
    cases hb : tryParseStringToInt b with
    | none =>
      simp only [compareText, FKeyName.rank, ha, hb, KeyRank.compare, compareLex, compareOn]
      rfl
    | some j =>
      simp only [compareText, FKeyName.rank, ha, hb]
      rfl
  | some i =>
    cases hb : tryParseStringToInt b with
    | none =>
      simp only [compareText, FKeyName.rank, ha, hb]
      rfl
    | some j =>
      simp only [compareText, FKeyName.rank, ha, hb, ite_eq_compare, KeyRank.compare, compareLex,
        compareOn]
      rfl

theorem KeyRank.compare_of_kind_lt {a b : KeyRank} (h : a.kind < b.kind) :
    KeyRank.compare a b = .lt := by
  simp [KeyRank.compare, compareLex, compareOn, compare_lt_iff_lt.mpr h]

theorem KeyRank.compare_of_kind_gt {a b : KeyRank} (h : b.kind < a.kind) :
    KeyRank.compare a b = .gt := by
  simp [KeyRank.compare, compareLex, compareOn, compare_gt_iff_gt.mpr h]

theorem FKeyName.kind_name (text : String) :
    0 < (FKeyName.rank (.name text)).kind ∧ (FKeyName.rank (.name text)).kind < 3 := by
  unfold FKeyName.rank
  dsimp only
  split <;> simp

theorem compareKey_eq_rank (a b : FKeyName) :
    compareKey a b = KeyRank.compare a.rank b.rank := by
  cases a with
  | minName =>
    cases b with
    | minName => exact Std.ReflCmp.compare_self.symm
    | maxName => rfl
    | name b => exact (KeyRank.compare_of_kind_lt (FKeyName.kind_name b).1).symm
  | maxName =>
    cases b with
    | minName => rfl
    | maxName => exact Std.ReflCmp.compare_self.symm
    | name b => exact (KeyRank.compare_of_kind_gt (FKeyName.kind_name b).2).symm
  | name a =>
    cases b with
    | minName => exact (KeyRank.compare_of_kind_gt (FKeyName.kind_name a).1).symm
    | maxName => exact (KeyRank.compare_of_kind_lt (FKeyName.kind_name a).2).symm
    | name b =>
      rw [← compareText_eq_rank]
      unfold compareKey
      split
      · next h =>
        cases h
        rw [compareText_eq_rank]
        exact Std.ReflCmp.compare_self.symm
      · simp

/-- `compareKey:toKey:` is a total preorder. -/
instance : TransCmp compareKey := by
  have heq : compareKey = fun a b => KeyRank.compare a.rank b.rank := by
    funext a b
    exact compareKey_eq_rank a b
  rw [heq]
  exact {
    eq_swap := Std.OrientedCmp.eq_swap
    isLE_trans := Std.TransCmp.isLE_trans }

/-! ## Ties -/

theorem KeyRank.eq_of_compare {a b : KeyRank} (h : KeyRank.compare a b = .eq) : a = b := by
  simp only [KeyRank.compare, compareLex, compareOn, Ordering.then_eq_eq, compare_eq_iff_eq] at h
  cases a
  cases b
  simp_all

theorem utf16Char_append_inj {c d : Char} {us vs : List Nat}
    (h : utf16Char c ++ us = utf16Char d ++ vs) : c = d ∧ us = vs := by
  -- a character below U+10000 is no surrogate, so the first unit says which case it is
  have hc := c.valid
  have hd := d.valid
  have hinj : c.toNat = d.toNat → c = d := Char.toNat_inj.mp
  change c.toNat.isValidChar at hc
  change d.toNat.isValidChar at hd
  unfold Nat.isValidChar at hc hd
  unfold utf16Char at h
  split at h <;> split at h
  · simp only [List.cons_append, List.nil_append, List.cons.injEq] at h
    exact ⟨hinj h.1, h.2⟩
  · simp only [List.cons_append, List.nil_append, List.cons.injEq] at h
    omega
  · simp only [List.cons_append, List.nil_append, List.cons.injEq] at h
    omega
  · simp only [List.cons_append, List.nil_append, List.cons.injEq] at h
    exact ⟨hinj (by omega), h.2.2⟩

theorem utf16Char_ne_nil (c : Char) : utf16Char c ≠ [] := by
  unfold utf16Char
  split <;> simp

theorem utf16_injective {s t : String} (h : utf16 s = utf16 t) : s = t := by
  have hlist : ∀ cs ds : List Char, cs.flatMap utf16Char = ds.flatMap utf16Char → cs = ds := by
    intro cs
    induction cs with
    | nil =>
      intro ds hds
      cases ds with
      | nil => rfl
      | cons d ds => simp [utf16Char_ne_nil] at hds
    | cons c cs ih =>
      intro ds hds
      cases ds with
      | nil => simp [utf16Char_ne_nil] at hds
      | cons d ds =>
        obtain ⟨rfl, hrest⟩ := utf16Char_append_inj hds
        rw [ih ds hrest]
  exact String.toList_inj.mp (hlist _ _ h)

/-- Digits of one number in one length are the same. -/
theorem parseDigits_inj {cs ds : List Nat} {a b n : Nat} (hlen : cs.length = ds.length)
    (hc : parseDigits cs a = some n) (hd : parseDigits ds b = some n) : a = b ∧ cs = ds := by
  induction cs generalizing ds a b with
  | nil =>
    obtain rfl : ds = [] := List.length_eq_zero_iff.mp hlen.symm
    simp_all [parseDigits]
  | cons c cs ih =>
    cases ds with
    | nil => cases hlen
    | cons d ds =>
      rw [parseDigits] at hc hd
      split at hc
      · cases hc
      · split at hd
        · cases hd
        · obtain ⟨hab, rfl⟩ := ih (by simpa using hlen) hc hd
          have : a = b ∧ c = d := by omega
          simp [this]

/-- A parsed integer is the digits, after a minus sign or not. -/
theorem tryParseUnits_eq_some {units : List Nat} {i : Int} (h : tryParseUnits units = some i) :
    (∃ digits n, units = 45 :: digits ∧ parseDigits digits 0 = some n ∧ i = -(n : Int)) ∨
      ∃ n, units.head? ≠ some 45 ∧ parseDigits units 0 = some n ∧ i = n := by
  have hint : ∀ {v : Int}, int32 v = some i → v = i := by
    intro v hv
    unfold int32 at hv
    split at hv
    · cases hv
    · exact Option.some.inj hv
  unfold tryParseUnits at h
  split at h
  · cases h
  · cases units with
    | nil => cases h
    | cons c rest =>
      dsimp only at h
      split at h
      · next hminus =>
        split at h
        · cases h
        · obtain ⟨n, hn, hv⟩ := Option.bind_eq_some_iff.mp h
          exact .inl ⟨rest, n, by rw [hminus], hn, (hint hv).symm⟩
      · next hminus =>
        obtain ⟨n, hn, hv⟩ := Option.bind_eq_some_iff.mp h
        exact .inr ⟨n, by simpa using hminus, hn, (hint hv).symm⟩

/-- The key spells the number zero with a minus sign. -/
def NegativeZero (s : String) : Prop :=
  tryParseStringToInt s = some 0 ∧ (utf16 s).head? = some 45

instance (s : String) : Decidable (NegativeZero s) :=
  inferInstanceAs (Decidable (_ ∧ _))

/-- Two spellings of one integer in one length are the same, or they are
two spellings of zero of which one has the minus sign. -/
theorem eq_of_same_integer {s t : String} {i : Int} (hs : tryParseStringToInt s = some i)
    (ht : tryParseStringToInt t = some i) (hlen : (utf16 s).length = (utf16 t).length) :
    s = t ∨ (i = 0 ∧ (NegativeZero s ↔ ¬ NegativeZero t)) := by
  rcases tryParseUnits_eq_some hs with ⟨ds, m, hsd, hm, him⟩ | ⟨m, hsd, hm, him⟩
  · rcases tryParseUnits_eq_some ht with ⟨es, n, hte, hn, hin⟩ | ⟨n, hte, hn, hin⟩
    · left
      obtain rfl : m = n := by omega
      rw [hsd, hte] at hlen
      obtain ⟨-, rfl⟩ := parseDigits_inj (by simpa using hlen) hm hn
      exact utf16_injective (hsd.trans hte.symm)
    · right
      obtain rfl : i = 0 := by omega
      exact ⟨rfl, by simp [NegativeZero, hs, hsd, hte]⟩
  · rcases tryParseUnits_eq_some ht with ⟨es, n, hte, hn, hin⟩ | ⟨n, hte, hn, hin⟩
    · right
      obtain rfl : i = 0 := by omega
      exact ⟨rfl, by simp [NegativeZero, ht, hsd, hte]⟩
    · left
      obtain rfl : m = n := by omega
      exact utf16_injective (parseDigits_inj hlen hm hn).2

/-- Two texts of one rank. -/
theorem eq_or_zero_of_rank {s t : String}
    (h : FKeyName.rank (.name s) = FKeyName.rank (.name t)) :
    s = t ∨ ((utf16 s).length = (utf16 t).length ∧ tryParseStringToInt s = some 0 ∧
      tryParseStringToInt t = some 0 ∧ (NegativeZero s ↔ ¬ NegativeZero t)) := by
  simp only [FKeyName.rank] at h
  cases hs : tryParseStringToInt s with
  | some i =>
    cases ht : tryParseStringToInt t with
    | some j =>
      simp only [hs, ht, KeyRank.mk.injEq, true_and, and_true] at h
      obtain ⟨rfl, hlen⟩ := h
      rcases eq_of_same_integer hs ht hlen with rfl | ⟨rfl, hzero⟩
      · exact .inl rfl
      · exact .inr ⟨hlen, rfl, rfl, hzero⟩
    | none => simp [hs, ht] at h
  | none =>
    cases ht : tryParseStringToInt t with
    | some j => simp [hs, ht] at h
    | none =>
      simp only [hs, ht, KeyRank.mk.injEq, true_and] at h
      exact .inl (utf16_injective h)

/-- Different keys tie exactly when they spell zero in one length, one of
them with a minus sign. -/
theorem compareKey_eq_iff (a b : FKeyName) :
    compareKey a b = .eq ↔ a = b ∨
      ∃ s t, a = .name s ∧ b = .name t ∧ (utf16 s).length = (utf16 t).length ∧
        tryParseStringToInt s = some 0 ∧ tryParseStringToInt t = some 0 ∧
        (NegativeZero s ↔ ¬ NegativeZero t) := by
  constructor
  · intro h
    rw [compareKey_eq_rank] at h
    have hrank := KeyRank.eq_of_compare h
    have hkind := congrArg KeyRank.kind hrank
    -- a sentinel has a kind of its own
    cases a with
    | minName =>
      cases b with
      | minName => exact .inl rfl
      | maxName => cases hrank
      | name t => exact absurd hkind (FKeyName.kind_name t).1.ne
    | maxName =>
      cases b with
      | minName => cases hrank
      | maxName => exact .inl rfl
      | name t => exact absurd hkind (FKeyName.kind_name t).2.ne'
    | name s =>
      cases b with
      | minName => exact absurd hkind (FKeyName.kind_name s).1.ne'
      | maxName => exact absurd hkind (FKeyName.kind_name s).2.ne
      | name t =>
        rcases eq_or_zero_of_rank hrank with rfl | ⟨hlen, hs, ht, hzero⟩
        · exact .inl rfl
        · exact .inr ⟨s, t, rfl, rfl, hlen, hs, ht, hzero⟩
  · rintro (rfl | ⟨s, t, rfl, rfl, hlen, hs, ht, -⟩)
    · exact Std.ReflCmp.compare_self
    · rw [compareKey_eq_rank]
      have hrank : FKeyName.rank (.name s) = FKeyName.rank (.name t) := by
        simp [FKeyName.rank, hs, ht, hlen]
      rw [hrank]
      exact Std.ReflCmp.compare_self

/-! ## Dictionaries that cannot be made -/

/-- `keyComparator` -/
def keyComparator (a b : String) : Ordering := compareKey (.name a) (.name b)

instance : TransCmp keyComparator where
  eq_swap := by
    unfold keyComparator
    exact Std.OrientedCmp.eq_swap
  isLE_trans := by
    unfold keyComparator
    exact Std.TransCmp.isLE_trans

theorem fromDictionary_eq_none_iff {κ ν : Type} {cmp : κ → κ → Ordering} [TransCmp cmp]
    {dictionary : List (κ × ν)} :
    FImmutableSortedDictionary.fromDictionary cmp dictionary = none ↔
      ¬ Sorted.Distinct cmp dictionary := by
  cases hsorted : sortedEntries cmp dictionary with
  | none =>
    have htie : ¬ Sorted.Distinct cmp dictionary := by
      intro hne
      rw [sortedEntries_eq_some_iff.mpr ⟨rfl, hne⟩] at hsorted
      cases hsorted
    simp [FImmutableSortedDictionary.fromDictionary, hsorted, htie]
  | some entries =>
    obtain ⟨root, n, hroot, -⟩ := FTreeSortedDictionary.rootFrom12List_spec entries
    have hne := (sortedEntries_eq_some_iff.mp hsorted).2
    simp only [FImmutableSortedDictionary.fromDictionary, hsorted, Option.bind_eq_bind,
      Option.bind_some, hroot, hne, not_true_eq_false, iff_false]
    split <;> simp

/-- A dictionary of children raises exactly when two of its keys spell zero
in one length, one of them with a minus sign. -/
theorem fromDictionary_raises_iff {ν : Type} {dictionary : List (String × ν)}
    (hkeys : (dictionary.map Prod.fst).Nodup) :
    FImmutableSortedDictionary.fromDictionary keyComparator dictionary = none ↔
      ∃ s ∈ dictionary.map Prod.fst, ∃ t ∈ dictionary.map Prod.fst,
        NegativeZero s ∧ tryParseStringToInt t = some 0 ∧ ¬ NegativeZero t ∧
          (utf16 s).length = (utf16 t).length := by
  have hsymm : Std.Symm fun a b : String => keyComparator a b ≠ .eq :=
    ⟨fun a b hne heq => hne (Std.OrientedCmp.eq_symm heq)⟩
  rw [fromDictionary_eq_none_iff, Sorted.Distinct, ← List.pairwise_map (f := Prod.fst)
    (R := fun a b => keyComparator a b ≠ .eq)]
  constructor
  · intro htie
    by_contra hnone
    apply htie
    apply hkeys.pairwise_of_forall_ne
    intro a ha b hb hab heq
    rcases (compareKey_eq_iff _ _).mp heq with heq | ⟨s, t, hs, ht, hlen, hs0, ht0, hzero⟩
    · exact hab (FKeyName.name.inj heq)
    · cases hs
      cases ht
      by_cases hneg : NegativeZero a
      · exact hnone ⟨a, ha, b, hb, hneg, ht0, hzero.mp hneg, hlen⟩
      · have hneg' : NegativeZero b := by
          by_contra hnot
          exact hneg (hzero.mpr hnot)
        exact hnone ⟨b, hb, a, ha, hneg', hs0, hneg, hlen.symm⟩
  · rintro ⟨s, hs, t, ht, hneg, ht0, hnot, hlen⟩ hpair
    have hne : s ≠ t := by
      rintro rfl
      exact hnot hneg
    refine hpair.forall hs ht hne ?_
    exact (compareKey_eq_iff _ _).mpr
      (.inr ⟨s, t, rfl, rfl, hlen, hneg.1, ht0, by simp [hneg, hnot]⟩)

theorem fromDictionary_raises_zeros :
    FImmutableSortedDictionary.fromDictionary keyComparator [("-0", 1), ("00", 2)] = none :=
  (fromDictionary_raises_iff (by decide)).mpr
    ⟨"-0", by decide, "00", by decide, by decide, by decide, by decide, by decide⟩

/-! ## Keys that never tie -/

/-- A key in ASCII that does not spell zero with a minus sign. On ASCII
`compare:`, which takes canonically equivalent texts for the same, is the
order of the code units. -/
@[ext] structure AsciiKey where
  text : String
  plain : ¬ NegativeZero text
  ascii : ∀ c ∈ text.toList, c.toNat < 128
deriving DecidableEq

def AsciiKey.compareKey (a b : AsciiKey) : Ordering := keyComparator a.text b.text

/-- `compare:` -/
def AsciiKey.compare (a b : AsciiKey) : Ordering := compareUnits (utf16 a.text) (utf16 b.text)

instance : FKey AsciiKey where
  keyComparator := AsciiKey.compareKey
  stringComparator := AsciiKey.compare
  dotPriority := ⟨".priority", by decide, by simp⟩
  keyTrans :=
    { eq_swap := by
        unfold AsciiKey.compareKey
        exact Std.OrientedCmp.eq_swap
      isLE_trans := by
        unfold AsciiKey.compareKey
        exact Std.TransCmp.isLE_trans }
  keyLawful :=
    { eq_of_compare := by
        intro a b h
        rcases (compareKey_eq_iff _ _).mp h with heq | ⟨s, t, hs, ht, -, -, -, hzero⟩
        · exact AsciiKey.ext (FKeyName.name.inj heq)
        · cases hs
          cases ht
          exact absurd (hzero.mpr b.plain) a.plain
      compare_self := by
        unfold AsciiKey.compareKey
        exact Std.ReflCmp.compare_self }
  stringTrans :=
    { eq_swap := by
        unfold AsciiKey.compare compareUnits
        exact Std.OrientedCmp.eq_swap
      isLE_trans := by
        unfold AsciiKey.compare compareUnits
        exact Std.TransCmp.isLE_trans }
  stringLawful :=
    { eq_of_compare := by
        intro a b h
        unfold AsciiKey.compare compareUnits at h
        exact AsciiKey.ext (utf16_injective (Std.LawfulEqCmp.eq_of_compare h))
      compare_self := by
        unfold AsciiKey.compare compareUnits
        exact Std.ReflCmp.compare_self }

end BetweenUS.FirebaseDatabase
