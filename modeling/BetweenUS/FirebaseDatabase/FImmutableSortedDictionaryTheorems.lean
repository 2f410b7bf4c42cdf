/-
BetweenUS.FirebaseDatabase.FImmutableSortedDictionaryTheorems — both
implementations of the sorted dictionary refine the ascending list of
their entries, through every sequence of updates and across the change of
implementation at 26 entries.
-/
import BetweenUS.FirebaseDatabase.FImmutableSortedDictionary
import BetweenUS.FirebaseDatabase.FLLRBNodeTheorems
import BetweenUS.Runs.Machine

namespace BetweenUS.FirebaseDatabase

open Sorted (Ascending)

variable {κ ν : Type} {cmp : κ → κ → Ordering}

/-! ## Lookups in the tree -/

namespace FLLRBNode

theorem count_eq_length (t : FLLRBNode κ ν) : t.count = t.inorder.length := by
  induction t with
  | empty => rfl
  | value k v c l r ihl ihr =>
    simp only [count, inorder, List.length_append, List.length_cons, ihl, ihr]
    omega

theorem reverseorder_eq (t : FLLRBNode κ ν) : t.reverseorder = t.inorder.reverse := by
  induction t with
  | empty => rfl
  | value k v c l r ihl ihr => simp [reverseorder, inorder, ihl, ihr]

theorem minKey_eq (t : FLLRBNode κ ν) : t.minKey = t.inorder.head?.map Prod.fst := by
  rw [minKey, min_entry]

theorem maxKey_eq (t : FLLRBNode κ ν) : t.maxKey = t.inorder.getLast?.map Prod.fst := by
  induction t with
  | empty => rfl
  | value k v c l r _ ihr =>
    rw [maxKey, inorder]
    split
    · next h => simp [eq_empty_of_isEmpty h, inorder]
    · next h =>
      have hne : r.inorder ≠ [] := by simpa [inorder_eq_nil_iff] using h
      rw [ihr, List.getLast?_append, List.getLast?_cons_of_ne_nil hne]
      cases hlast : r.inorder.getLast? with
      | none => simp [List.getLast?_eq_none_iff, hne] at hlast
      | some e => rfl

end FLLRBNode

namespace FTreeSortedDictionary

open FLLRBNode

section Lookups

variable [Std.TransCmp cmp]

theorem get_eq {t : FLLRBNode κ ν} (h : Ascending cmp t.inorder) (key : κ) :
    get cmp t key = Sorted.get cmp t.inorder key := by
  induction t with
  | empty => rfl
  | value k v c l r ihl ihr =>
    obtain ⟨hl, hr, habove, -⟩ := Sorted.ascending_append.mp h
    rw [get, inorder]
    split
    · next hc => rw [Sorted.get_append_eq habove hc]
    · next hc => rw [ihl hl, Sorted.get_append_lt hc]
    · next hc => rw [ihr hr, Sorted.get_append_gt habove hc]

theorem rightmostKey_eq_maxKey (t : FLLRBNode κ ν) : rightmostKey t = t.maxKey := by
  induction t with
  | empty => rfl
  | value k v c l r _ ihr => rw [rightmostKey, maxKey, ihr]

theorem getPredecessorLoop_eq {t : FLLRBNode κ ν} (h : Ascending cmp t.inorder) (key : κ)
    (rightParent : Option κ) : getPredecessorLoop cmp key t rightParent =
      Sorted.predecessor cmp key t.inorder rightParent := by
  induction t generalizing rightParent with
  | empty => rfl
  | value k v c l r ihl ihr =>
    obtain ⟨hl, hr, habove, -⟩ := Sorted.ascending_append.mp h
    rw [getPredecessorLoop, inorder]
    split
    · next hc =>
      rw [Sorted.predecessor_append_eq habove hc, Sorted.lastKey, rightmostKey_eq_maxKey,
        maxKey_eq]
      split
      · next hempty => simp [eq_empty_of_isEmpty hempty, inorder]
      · next hempty =>
        have hne : l.inorder ≠ [] := by simpa [inorder_eq_nil_iff] using hempty
        simp [List.getLast?_eq_some_getLast hne]
    · next hc => rw [ihl hl, Sorted.predecessor_append_lt hc]
    · next hc => rw [ihr hr, Sorted.predecessor_append_gt habove hc]

end Lookups

/-! ## Building a tree -/

/-- The entries from `startIndex` on, `length` of them. -/
def slice (entries : List (κ × ν)) (startIndex length : Nat) : List (κ × ν) :=
  (entries.drop startIndex).take length

theorem slice_add {entries : List (κ × ν)} {i m n : Nat} :
    slice entries i m ++ slice entries (i + m) n = slice entries i (m + n) := by
  simp [slice, List.take_add, List.drop_drop]

theorem slice_one {entries : List (κ × ν)} {i : Nat} {e : κ × ν} (h : entries[i]? = some e) :
    slice entries i 1 = [e] := by
  simp [slice, List.take_one, List.head?_drop, h]

theorem exists_getElem? {entries : List (κ × ν)} {i : Nat} (h : i < entries.length) :
    ∃ e, entries[i]? = some e :=
  ⟨entries[i], List.getElem?_eq_getElem h⟩

theorem boundLength_eq {count startIndex length : Nat} (h : startIndex + length ≤ count) :
    boundLength count startIndex length = length := by
  rw [boundLength, if_pos (by omega)]
  exact Nat.min_eq_right (by omega)

/-- A full tree has all nodes black and all paths of one length. -/
theorem buildBalancedTree_spec {entries : List (κ × ν)} {startIndex depth : Nat}
    (h : startIndex + (2 ^ depth - 1) ≤ entries.length) :
    ∃ t, buildBalancedTree entries startIndex (2 ^ depth - 1) = some t ∧
      Balanced .black depth t ∧ t.inorder = slice entries startIndex (2 ^ depth - 1) := by
  induction depth generalizing startIndex with
  | zero =>
    refine ⟨.empty, ?_, .empty, by simp [inorder, slice]⟩
    rw [buildBalancedTree]
    dsimp only
    rw [boundLength_eq h]
    rfl
  | succ depth ih =>
    have hpos : 0 < 2 ^ depth := Nat.two_pow_pos depth
    have hpow : 2 ^ (depth + 1) = 2 * 2 ^ depth := Nat.pow_succ'
    have hmiddle : (2 ^ (depth + 1) - 1) / 2 = 2 ^ depth - 1 := by omega
    obtain ⟨⟨k, v⟩, hroot⟩ : ∃ e, entries[startIndex + (2 ^ depth - 1)]? = some e :=
      exists_getElem? (by omega)
    obtain ⟨l, hl, hlbal, hlist⟩ := @ih startIndex (by omega)
    obtain ⟨r, hr, hrbal, hrist⟩ :=
      @ih (startIndex + (2 ^ depth - 1) + 1) (by omega)
    have hslice : l.inorder ++ (k, v) :: r.inorder =
        slice entries startIndex (2 ^ (depth + 1) - 1) := by
      have hsum : 2 ^ depth - 1 + (1 + (2 ^ depth - 1)) = 2 ^ (depth + 1) - 1 := by omega
      rw [← hsum, ← slice_add, ← slice_add, slice_one hroot, hlist, hrist]
      rfl
    refine ⟨.value k v .black l r, ?_, .black hlbal hrbal, hslice⟩
    rw [buildBalancedTree]
    simp only [boundLength_eq h, hmiddle]
    have hne : ¬ 2 ^ (depth + 1) - 1 = 0 := by omega
    rw [if_neg hne]
    split
    · -- a single entry is built without recursive calls
      next hone =>
      obtain rfl : depth = 0 := by
        by_contra hdepth
        have := Nat.pow_le_pow_right (n := 2) (by omega) (Nat.one_le_iff_ne_zero.mpr hdepth)
        omega
      obtain rfl := hlbal.eq_empty
      obtain rfl := hrbal.eq_empty
      have hroot' : entries[startIndex]? = some (k, v) := hroot
      simp [hroot']
    · simp [hl, hr, hroot]

theorem attachPennants_cons {entries : List (κ × ν)} {c : FLLRBColor} {depth index : Nat}
    {rest : List (FLLRBColor × Nat)} {left : FLLRBNode κ ν} (hpos : 2 ^ depth ≤ index)
    (hle : index ≤ entries.length)
    (hrest : attachPennants entries rest (index - 2 ^ depth) = some left)
    (hleft : left.inorder = entries.take (index - 2 ^ depth)) :
    ∃ k v r, attachPennants entries ((c, 2 ^ depth) :: rest) index =
        some (.value k v c left r) ∧ Balanced .black depth r ∧
      (FLLRBNode.value k v c left r).inorder = entries.take index := by
  have hchunk : 0 < 2 ^ depth := Nat.two_pow_pos depth
  obtain ⟨⟨k, v⟩, hroot⟩ : ∃ e, entries[index - 2 ^ depth]? = some e :=
    exists_getElem? (by omega)
  obtain ⟨r, hr, hbal, hlist⟩ :=
    @buildBalancedTree_spec κ ν entries (index - 2 ^ depth + 1) depth (by omega)
  refine ⟨k, v, r, ?_, hbal, ?_⟩
  · simp [attachPennants, hroot, hr, hrest]
  · have hsum : index - 2 ^ depth + (1 + (2 ^ depth - 1)) = index := by omega
    have htake : ∀ n, entries.take n = slice entries 0 n := by simp [slice]
    rw [inorder, hleft, hlist, htake, htake, ← congrArg (slice entries 0) hsum, ← slice_add,
      ← slice_add, Nat.zero_add, slice_one hroot]
    rfl

/-- Digit by digit, the chain of pennants is a balanced tree over the first
entries. -/
theorem attachPennants_spec (entries : List (κ × ν)) (bits depth : Nat)
    (h : 2 ^ depth - 1 + bits % 2 ^ depth ≤ entries.length) :
    ∃ t, attachPennants entries (pennants bits depth) (2 ^ depth - 1 + bits % 2 ^ depth) =
        some t ∧ Balanced .black depth t ∧
      t.inorder = entries.take (2 ^ depth - 1 + bits % 2 ^ depth) := by
  induction depth with
  | zero => exact ⟨.empty, rfl, .empty, by simp [inorder, Nat.mod_one]⟩
  | succ depth ih =>
    have hchunk : 0 < 2 ^ depth := Nat.two_pow_pos depth
    have hpow : 2 ^ (depth + 1) = 2 * 2 ^ depth := Nat.pow_succ'
    have hdigit : bits % 2 ^ (depth + 1) =
        bits % 2 ^ depth + 2 ^ depth * (bits.testBit depth).toNat := by
      rw [Nat.mod_pow_succ, Nat.toNat_testBit]
    cases hbit : bits.testBit depth with
    | false =>
      -- the digit 1: one black pennant
      simp only [hbit, Bool.toNat_false, Nat.mul_zero, Nat.add_zero] at hdigit
      have hindex : 2 ^ (depth + 1) - 1 + bits % 2 ^ (depth + 1) - 2 ^ depth =
          2 ^ depth - 1 + bits % 2 ^ depth := by omega
      obtain ⟨left, hleft, hbal, hlist⟩ := ih (by omega)
      rw [← hindex] at hleft hlist
      obtain ⟨k, v, r, hnode, hr, hall⟩ :=
        attachPennants_cons (c := .black) (by omega) h hleft hlist
      refine ⟨_, ?_, .black hbal hr, hall⟩
      simpa [pennants, hbit] using hnode
    | true =>
      -- the digit 2: a red pennant under a black one
      simp only [hbit, Bool.toNat_true, Nat.mul_one] at hdigit
      have hindex : 2 ^ (depth + 1) - 1 + bits % 2 ^ (depth + 1) - 2 ^ depth - 2 ^ depth =
          2 ^ depth - 1 + bits % 2 ^ depth := by omega
      obtain ⟨left, hleft, hbal, hlist⟩ := ih (by omega)
      rw [← hindex] at hleft hlist
      obtain ⟨k, v, r, hnode, hr, hred⟩ :=
        attachPennants_cons (c := .red) (by omega) (by omega) hleft hlist
      obtain ⟨k', v', r', hnode', hr', hall⟩ :=
        attachPennants_cons (c := .black) (by omega) h hnode hred
      refine ⟨_, ?_, .black (.red hbal hr) hr', hall⟩
      simpa [pennants, hbit] using hnode'

theorem rootFrom12List_spec (entries : List (κ × ν)) :
    ∃ t n, rootFrom12List entries = some t ∧ Balanced .black n t ∧ t.inorder = entries := by
  have hlow : 2 ^ (entries.length + 1).log2 ≤ entries.length + 1 :=
    Nat.log2_self_le (by omega)
  have hhigh : entries.length + 1 < 2 ^ ((entries.length + 1).log2 + 1) := Nat.lt_log2_self
  have hsize : 2 ^ (entries.length + 1).log2 - 1 +
      (entries.length + 1) % 2 ^ (entries.length + 1).log2 %
        2 ^ (entries.length + 1).log2 = entries.length := by
    rw [Nat.mod_mod, Nat.mod_eq_sub_mod hlow, Nat.mod_eq_of_lt (by omega)]
    have hchunk := Nat.two_pow_pos (entries.length + 1).log2
    omega
  obtain ⟨t, ht, hbal, hlist⟩ := attachPennants_spec entries
    ((entries.length + 1) % 2 ^ (entries.length + 1).log2) (entries.length + 1).log2 hsize.le
  rw [hsize] at ht hlist
  exact ⟨t, _, ht, hbal, by rw [hlist, List.take_length]⟩

end FTreeSortedDictionary

/-! ## Sorting -/

section Sorting

variable [Std.TransCmp cmp]

theorem isLE_total (a b : κ) : ((cmp a b).isLE || (cmp b a).isLE) = true := by
  have hswap : cmp b a = (cmp a b).swap := Std.OrientedCmp.eq_swap
  rw [hswap]
  cases cmp a b <;> rfl

/-- Sorting raises exactly when two keys tie. -/
theorem sortedEntries_eq_some_iff {dictionary entries : List (κ × ν)} :
    sortedEntries cmp dictionary = some entries ↔
      dictionary.mergeSort (fun a b => (cmp a.1 b.1).isLE) = entries ∧
        Sorted.Distinct cmp dictionary := by
  let lt : κ × ν → κ × ν → Prop := fun a b => cmp a.1 b.1 = .lt
  have : Trans lt lt lt := ⟨fun hab hbc => Std.TransCmp.lt_trans hab hbc⟩
  have hsymm : ∀ a b : κ × ν, cmp a.1 b.1 ≠ .eq → cmp b.1 a.1 ≠ .eq :=
    fun a b hne heq => hne (Std.OrientedCmp.eq_symm heq)
  have hperm := dictionary.mergeSort_perm fun a b => (cmp a.1 b.1).isLE
  have hle : (dictionary.mergeSort fun a b => (cmp a.1 b.1).isLE).Pairwise
      fun a b => (cmp a.1 b.1).isLE = true :=
    List.pairwise_mergeSort (fun _ _ _ => Std.TransCmp.isLE_trans)
      (fun a b => isLE_total a.1 b.1) dictionary
  have hchain : ∀ l : List (κ × ν), l.IsChain lt ↔ l.Pairwise lt :=
    fun _ => List.isChain_iff_pairwise
  simp only [sortedEntries, hchain, lt]
  constructor
  · intro h
    split at h
    · next hlt =>
      refine ⟨by simpa using h, (hperm.pairwise_iff (fun {a b} => hsymm a b)).mp ?_⟩
      exact hlt.imp fun hab => by simp [hab]
    · cases h
  · rintro ⟨rfl, hne⟩
    rw [if_pos]
    have hne' := (hperm.pairwise_iff (fun {a b} => hsymm a b)).mpr hne
    exact List.Pairwise.imp₂ (fun a b hab hab' => by
      revert hab hab'
      cases cmp a.1 b.1 <;> simp) hle hne'

theorem ascending_of_sortedEntries {dictionary entries : List (κ × ν)}
    (h : sortedEntries cmp dictionary = some entries) :
    Ascending cmp entries ∧ entries.Perm dictionary := by
  have hchain : entries.IsChain fun a b => cmp a.1 b.1 = .lt := by
    rw [sortedEntries] at h
    split at h
    · next hlt =>
      cases h
      exact hlt
    · cases h
  let lt : κ × ν → κ × ν → Prop := fun a b => cmp a.1 b.1 = .lt
  have : Trans lt lt lt := ⟨fun hab hbc => Std.TransCmp.lt_trans hab hbc⟩
  obtain ⟨rfl, -⟩ := sortedEntries_eq_some_iff.mp h
  exact ⟨(List.isChain_iff_pairwise (R := lt)).mp hchain, List.mergeSort_perm _ _⟩

/-- The sorted entries are the ascending list of the same entries. -/
theorem sortedEntries_eq_some_iff_perm {dictionary entries : List (κ × ν)} :
    sortedEntries cmp dictionary = some entries ↔
      Ascending cmp entries ∧ entries.Perm dictionary := by
  constructor
  · exact ascending_of_sortedEntries
  · rintro ⟨hasc, hperm⟩
    have hsymm : ∀ a b : κ × ν, cmp a.1 b.1 ≠ .eq → cmp b.1 a.1 ≠ .eq :=
      fun a b hne heq => hne (Std.OrientedCmp.eq_symm heq)
    have hne : Sorted.Distinct cmp entries := hasc.imp fun hab => by simp [hab]
    have hsorted := sortedEntries_eq_some_iff.mpr
      ⟨rfl, (hperm.pairwise_iff (fun {a b} => hsymm a b)).mp hne⟩
    obtain ⟨hasc', hperm'⟩ := ascending_of_sortedEntries hsorted
    rw [hsorted, hasc'.eq_of_mem_iff hasc fun e => (hperm'.trans hperm.symm).mem_iff]

end Sorting

/-! ## The array -/

namespace FArraySortedDictionary

theorem findKey_eq_none_of_get {d : List (κ × ν)} {key : κ}
    (h : findKey cmp (d.map Prod.fst) key = none) : Sorted.get cmp d key = none := by
  induction d with
  | nil => rfl
  | cons e d ih => cases hc : cmp key e.1 <;> simp_all [findKey, Sorted.get]

theorem get_of_findKey {d : List (κ × ν)} {key : κ} {pos : Nat}
    (h : findKey cmp (d.map Prod.fst) key = some pos) :
    (d.map Prod.snd)[pos]? = Sorted.get cmp d key := by
  induction d generalizing pos with
  | nil => cases h
  | cons e d ih =>
    simp only [List.map_cons, findKey] at h
    rw [Sorted.get]
    split at h
    · next hc =>
      obtain rfl : 0 = pos := by simpa using h
      simp [hc]
    · cases h
    · next hc =>
      obtain ⟨pos', hpos, rfl⟩ := Option.map_eq_some_iff.mp h
      simpa [hc] using ih hpos

theorem set_findKey {d : List (κ × ν)} {key : κ} {pos : Nat}
    (h : findKey cmp (d.map Prod.fst) key = some pos) (value : ν) :
    (d.map Prod.fst).set pos key = (Sorted.insert cmp key value d).map Prod.fst ∧
      (d.map Prod.snd).set pos value = (Sorted.insert cmp key value d).map Prod.snd ∧
      (Sorted.insert cmp key value d).length = d.length := by
  induction d generalizing pos with
  | nil => cases h
  | cons e d ih =>
    simp only [List.map_cons, findKey] at h
    rw [Sorted.insert]
    split at h
    · next hc =>
      obtain rfl : 0 = pos := by simpa using h
      simp [hc]
    · cases h
    · next hc =>
      obtain ⟨pos', hpos, rfl⟩ := Option.map_eq_some_iff.mp h
      simpa [hc] using ih hpos

theorem eraseIdx_findKey {d : List (κ × ν)} {key : κ} {pos : Nat}
    (h : findKey cmp (d.map Prod.fst) key = some pos) :
    (d.map Prod.fst).eraseIdx pos = (Sorted.erase cmp key d).map Prod.fst ∧
      (d.map Prod.snd).eraseIdx pos = (Sorted.erase cmp key d).map Prod.snd := by
  induction d generalizing pos with
  | nil => cases h
  | cons e d ih =>
    simp only [List.map_cons, findKey] at h
    rw [Sorted.erase]
    split at h
    · next hc =>
      obtain rfl : 0 = pos := by simpa using h
      simp [hc]
    · cases h
    · next hc =>
      obtain ⟨pos', hpos, rfl⟩ := Option.map_eq_some_iff.mp h
      simpa [hc] using ih hpos

theorem insertIdx_findInsertPosition [Std.OrientedCmp cmp] {d : List (κ × ν)} {key : κ}
    (h : findKey cmp (d.map Prod.fst) key = none) (value : ν) :
    (d.map Prod.fst).insertIdx (findInsertPositionForKey cmp (d.map Prod.fst) key) key =
        (Sorted.insert cmp key value d).map Prod.fst ∧
      (d.map Prod.snd).insertIdx (findInsertPositionForKey cmp (d.map Prod.fst) key) value =
        (Sorted.insert cmp key value d).map Prod.snd ∧
      (Sorted.insert cmp key value d).length = d.length + 1 := by
  induction d with
  | nil => simp [findInsertPositionForKey, Sorted.insert]
  | cons e d ih =>
    simp only [List.map_cons, findKey] at h
    rw [Sorted.insert]
    split at h
    · cases h
    · next hc =>
      have hgt : cmp e.1 key = .gt := Std.OrientedCmp.gt_of_lt hc
      simp [findInsertPositionForKey, hc, hgt]
    · next hc =>
      have hlt : cmp e.1 key = .lt := Std.OrientedCmp.lt_of_gt hc
      simpa [findInsertPositionForKey, hc, hlt] using ih (by simpa using h)

theorem predecessor_of_findKey {d : List (κ × ν)} {key : κ} (previous : Option κ) :
    Sorted.predecessor cmp key d previous =
      match findKey cmp (d.map Prod.fst) key with
      | none => none
      | some 0 => some previous
      | some (pos + 1) => some (d.map Prod.fst)[pos]? := by
  induction d generalizing previous with
  | nil => rfl
  | cons e d ih =>
    cases hc : cmp key e.1 with
    | lt => simp [Sorted.predecessor, findKey, hc]
    | eq => simp [Sorted.predecessor, findKey, hc]
    | gt =>
      rw [Sorted.predecessor, hc, ih]
      cases hfind : findKey cmp (d.map Prod.fst) key with
      | none => simp [findKey, hc, hfind]
      | some pos => cases pos <;> simp [findKey, hc, hfind]

end FArraySortedDictionary

/-! ## Refinement -/

namespace FImmutableSortedDictionary

open FLLRBNode FArraySortedDictionary

/-- The dictionary holds the entries `d`: in two arrays of at most 25, or
in a balanced tree with a black root. -/
inductive Represents (cmp : κ → κ → Ordering) :
    FImmutableSortedDictionary κ ν → List (κ × ν) → Prop
  | array {d} : Ascending cmp d → d.length ≤ arrayToTreeThreshold →
      Represents cmp (array (d.map Prod.fst) (d.map Prod.snd)) d
  | tree {root n} : Balanced .black n root → Ascending cmp root.inorder →
      Represents cmp (tree root) root.inorder

theorem Represents.ascending {dict : FImmutableSortedDictionary κ ν} {d : List (κ × ν)}
    (h : Represents cmp dict d) : Ascending cmp d := by
  cases h with
  | array hasc _ => exact hasc
  | tree _ hasc => exact hasc

theorem zip_map_fst_snd (d : List (κ × ν)) : (d.map Prod.fst).zip (d.map Prod.snd) = d := by
  induction d with
  | nil => rfl
  | cons e d ih => simp [ih]

theorem Represents.enumerate_eq {dict : FImmutableSortedDictionary κ ν} {d : List (κ × ν)}
    (h : Represents cmp dict d) : dict.enumerate = d := by
  cases h with
  | array _ _ => exact zip_map_fst_snd d
  | tree _ _ => rfl

/-- A tree built from sorted entries. -/
theorem represents_rootFrom12List {d : List (κ × ν)} (h : Ascending cmp d) :
    ∃ root, FTreeSortedDictionary.rootFrom12List d = some root ∧ Represents cmp (tree root) d := by
  obtain ⟨root, n, hroot, hbal, hlist⟩ := FTreeSortedDictionary.rootFrom12List_spec d
  refine ⟨root, hroot, ?_⟩
  subst hlist
  exact .tree hbal h

/-- Both implementations enumerate the sorted entries. -/
theorem map_enumerate_fromDictionary (cmp : κ → κ → Ordering) [Std.TransCmp cmp]
    (dictionary : List (κ × ν)) :
    (fromDictionary cmp dictionary).map enumerate = sortedEntries cmp dictionary := by
  rw [fromDictionary]
  cases hsorted : sortedEntries cmp dictionary with
  | none => rfl
  | some d =>
    obtain ⟨hasc, hperm⟩ := ascending_of_sortedEntries hsorted
    rw [Option.bind_eq_bind, Option.bind_some]
    split
    · next hsize =>
      exact congrArg some (Represents.array hasc (hperm.length_eq ▸ hsize)).enumerate_eq
    · obtain ⟨root, hroot, hrep⟩ := represents_rootFrom12List hasc
      rw [hroot]
      exact congrArg some hrep.enumerate_eq

section Operations

variable [Std.TransCmp cmp] {dict : FImmutableSortedDictionary κ ν} {d : List (κ × ν)}

theorem represents_fromDictionary {dictionary : List (κ × ν)}
    (h : Sorted.Distinct cmp dictionary) :
    ∃ dict d, fromDictionary cmp dictionary = some dict ∧ Represents cmp dict d ∧
      d.Perm dictionary := by
  obtain ⟨d, hd⟩ : ∃ d, sortedEntries cmp dictionary = some d :=
    ⟨_, sortedEntries_eq_some_iff.mpr ⟨rfl, h⟩⟩
  obtain ⟨hasc, hperm⟩ := ascending_of_sortedEntries hd
  by_cases hsize : dictionary.length ≤ arrayToTreeThreshold
  · refine ⟨_, d, ?_, .array hasc (hperm.length_eq ▸ hsize), hperm⟩
    simp [fromDictionary, hd, hsize]
  · obtain ⟨root, hroot, hrep⟩ := represents_rootFrom12List hasc
    refine ⟨_, d, ?_, hrep, hperm⟩
    simp [fromDictionary, hd, hsize, hroot]

/-- The entries with a new key appended, sorted. -/
theorem sortedEntries_append (hasc : Ascending cmp d) {key : κ} (value : ν)
    (hnew : Sorted.get cmp d key = none) :
    sortedEntries cmp (d ++ [(key, value)]) = some (Sorted.insert cmp key value d) := by
  have hdistinct : Sorted.Distinct cmp (d ++ [(key, value)]) := by
    refine List.pairwise_append.mpr ⟨hasc.imp fun hab => by simp [hab], by simp, ?_⟩
    intro a ha b hb heq
    obtain rfl : b = (key, value) := by simpa using hb
    rw [Sorted.get_of_mem hasc ha (Std.OrientedCmp.eq_symm heq)] at hnew
    cases hnew
  have hentries := sortedEntries_eq_some_iff.mpr ⟨rfl, hdistinct⟩
  obtain ⟨hasc', hperm⟩ := ascending_of_sortedEntries hentries
  rw [hentries, hasc'.eq_of_mem_iff (hasc.insert key value)]
  intro e
  rw [hperm.mem_iff, Sorted.mem_insert_iff hnew]
  simp [or_comm]

/-- An array takes the new key in the place of one it ties with, a tree
keeps the old one. -/
theorem Represents.insertKey (h : Represents cmp dict d) (key : κ) (value : ν) :
    ∃ dict' d', dict.insertKey cmp key value = some dict' ∧ Represents cmp dict' d' ∧
      (d' = Sorted.insert cmp key value d ∨ d' = Sorted.insertKeeping cmp key value d) := by
  cases h with
  | @tree root _ hbal htree =>
    obtain ⟨n, hbal'⟩ := insertKey_root cmp hbal key value
    have hlist : (FTreeSortedDictionary.insertKey cmp root key value).inorder =
        Sorted.insertKeeping cmp key value root.inorder := by
      rw [FTreeSortedDictionary.insertKey, inorder_withColor, inorder_insertKey htree]
    exact ⟨_, _, rfl, .tree hbal' (hlist ▸ htree.insertKeeping key value), .inr hlist⟩
  | array hd hsize =>
    have hasc := hd.insert key value
    cases hfind : findKey cmp (d.map Prod.fst) key with
    | some pos =>
      obtain ⟨hkeys, hvalues, hlength⟩ := set_findKey hfind value
      refine ⟨_, _, ?_, .array hasc (hlength ▸ hsize), .inl rfl⟩
      simp only [FImmutableSortedDictionary.insertKey, hfind, hkeys, hvalues]
    | none =>
      by_cases hfull : arrayToTreeThreshold ≤ d.length
      · have hsorted := sortedEntries_append hd value (findKey_eq_none_of_get hfind)
        obtain ⟨root, hroot, hrep⟩ := represents_rootFrom12List hasc
        refine ⟨_, _, ?_, hrep, .inl rfl⟩
        simp [FImmutableSortedDictionary.insertKey, hfind, hfull, zip_map_fst_snd, hsorted, hroot]
      · obtain ⟨hkeys, hvalues, hlength⟩ := insertIdx_findInsertPosition hfind value
        refine ⟨_, _, ?_, .array hasc (by omega), .inl rfl⟩
        simp [FImmutableSortedDictionary.insertKey, hfind, hfull, hkeys, hvalues]

theorem Represents.removeKey (h : Represents cmp dict d) (key : κ) :
    Represents cmp (dict.removeKey cmp key) (Sorted.erase cmp key d) := by
  have hasc := h.ascending.erase key
  cases h with
  | tree hbal htree =>
    rw [FImmutableSortedDictionary.removeKey, FTreeSortedDictionary.removeKey,
      FTreeSortedDictionary.get_eq htree]
    split
    · obtain ⟨⟨n, hbal'⟩, hlist⟩ := remove_root hbal htree key
      rw [← hlist] at hasc ⊢
      exact .tree hbal' hasc
    · next hnone =>
      rw [Sorted.erase_eq_self (by simpa using hnone)] at hasc ⊢
      exact .tree hbal hasc
  | array hd hsize =>
    rw [FImmutableSortedDictionary.removeKey]
    cases hfind : findKey cmp (d.map Prod.fst) key with
    | none =>
      rw [Sorted.erase_eq_self (findKey_eq_none_of_get hfind)]
      exact .array hd hsize
    | some pos =>
      obtain ⟨hkeys, hvalues⟩ := eraseIdx_findKey hfind
      dsimp only
      rw [hkeys, hvalues]
      exact .array hasc ((Sorted.length_erase_le key d).trans hsize)

/-- Every reader of the dictionary answers for the entries it holds. -/
structure Reads (cmp : κ → κ → Ordering) (dict : FImmutableSortedDictionary κ ν)
    (d : List (κ × ν)) : Prop where
  enumerate : dict.enumerate = d
  enumerateReverse : dict.enumerateReverse = d.reverse
  get : ∀ key, dict.get cmp key = Sorted.get cmp d key
  getPredecessorKey : ∀ key, dict.getPredecessorKey cmp key = Sorted.predecessor cmp key d none
  count : dict.count = d.length
  minKey : dict.minKey = d.head?.map Prod.fst
  maxKey : dict.maxKey = d.getLast?.map Prod.fst

theorem Represents.reads (h : Represents cmp dict d) : Reads cmp dict d := by
  refine ⟨h.enumerate_eq, ?_, ?_, ?_, ?_, ?_, ?_⟩ <;> cases h
  case refine_1.array => simp [FImmutableSortedDictionary.enumerateReverse, zip_map_fst_snd]
  case refine_1.tree => exact reverseorder_eq _
  case refine_2.array =>
    intro key
    rw [FImmutableSortedDictionary.get]
    cases hfind : findKey cmp (d.map Prod.fst) key with
    | none => exact (findKey_eq_none_of_get hfind).symm
    | some pos => exact get_of_findKey hfind
  case refine_2.tree htree => exact fun key => FTreeSortedDictionary.get_eq htree key
  case refine_3.array => exact fun key => (predecessor_of_findKey none).symm
  case refine_3.tree htree =>
    exact fun key => FTreeSortedDictionary.getPredecessorLoop_eq htree key none
  case refine_4.array => exact List.length_map Prod.fst
  case refine_4.tree => exact count_eq_length _
  case refine_5.array => exact List.head?_map
  case refine_5.tree => exact minKey_eq _
  case refine_6.array => exact List.getLast?_map
  case refine_6.tree => exact maxKey_eq _

/-- `isEqual:` compares what the keys lead to, whatever the two
implementations and the shapes of the trees. -/
theorem isEqual_iff [BEq ν] [LawfulBEq ν] {dict' : FImmutableSortedDictionary κ ν}
    {d' : List (κ × ν)} (h : Represents cmp dict d) (h' : Represents cmp dict' d') :
    dict.isEqual cmp dict' = true ↔ ∀ key, dict.get cmp key = dict'.get cmp key := by
  simp only [isEqual, h.reads.enumerate, h.reads.count, h'.reads.count, h.reads.get, h'.reads.get,
    Bool.and_eq_true, List.all_eq_true, beq_iff_eq]
  constructor
  · rintro ⟨hlength, hget⟩
    exact (Sorted.length_le_and_get_eq h.ascending h'.ascending hget).2 hlength
  · intro hget
    have hleft : ∀ e ∈ d, Sorted.get cmp d' e.1 = some e.2 := fun e he =>
      hget e.1 ▸ Sorted.get_of_mem h.ascending he Std.ReflCmp.compare_self
    have hright : ∀ e ∈ d', Sorted.get cmp d e.1 = some e.2 := fun e he =>
      hget e.1 ▸ Sorted.get_of_mem h'.ascending he Std.ReflCmp.compare_self
    refine ⟨Nat.le_antisymm ?_ ?_, hleft⟩
    · exact (Sorted.length_le_and_get_eq h.ascending h'.ascending hleft).1
    · exact (Sorted.length_le_and_get_eq h'.ascending h.ascending hright).1

end Operations

/-! ## Runs -/

inductive Update (κ ν : Type) where
  | insertKey (key : κ) (aValue : ν)
  | removeKey (key : κ)

/-- An update of the dictionary in the code; none once an exception was
raised. -/
def update (cmp : κ → κ → Ordering) :
    Option (FImmutableSortedDictionary κ ν) → Update κ ν → Option (FImmutableSortedDictionary κ ν)
  | none, _ => none
  | some dict, .insertKey key aValue => dict.insertKey cmp key aValue
  | some dict, .removeKey key => some (dict.removeKey cmp key)

/-- The same update of the ascending list. -/
def updateEntries (cmp : κ → κ → Ordering) (d : List (κ × ν)) : Update κ ν → List (κ × ν)
  | .insertKey key aValue => Sorted.insert cmp key aValue d
  | .removeKey key => Sorted.erase cmp key d

variable [Std.TransCmp cmp]

/-- Through every sequence of updates the dictionary holds what the same
updates make of the list, up to keys that tie. -/
theorem represents_run {dict : FImmutableSortedDictionary κ ν} {d : List (κ × ν)}
    (h : Represents cmp dict d) (us : List (Update κ ν)) :
    ∃ dict' d', Runs.run (update cmp) (some dict) us = some dict' ∧ Represents cmp dict' d' ∧
      Sorted.Alike cmp d' (Runs.run (updateEntries cmp) d us) := by
  apply Runs.simulation_run (R := fun state d => ∃ dict' d', state = some dict' ∧
    Represents cmp dict' d' ∧ Sorted.Alike cmp d' d)
  · rintro _ d₁ u ⟨dict', d', rfl, hrep, halike⟩
    cases u with
    | insertKey key aValue =>
      obtain ⟨dict'', d'', hinsert, hrep', hd⟩ := hrep.insertKey key aValue
      refine ⟨dict'', d'', hinsert, hrep', ?_⟩
      rcases hd with rfl | rfl
      · exact halike.insert key aValue
      · exact halike.insertKeeping key aValue
    | removeKey key => exact ⟨_, _, rfl, hrep.removeKey key, halike.erase key⟩
  · exact ⟨dict, d, rfl, h, Sorted.Alike.refl d⟩

/-- The same from a dictionary that is made first. -/
theorem represents_run_fromDictionary {start : List (κ × ν)} (hkeys : Sorted.Distinct cmp start)
    (us : List (Update κ ν)) :
    ∃ dict d' d, Runs.run (update cmp) (fromDictionary cmp start) us = some dict ∧
      Represents cmp dict d' ∧ d.Perm start ∧ Ascending cmp d ∧
      Sorted.Alike cmp d' (Runs.run (updateEntries cmp) d us) := by
  obtain ⟨dict, d, hfrom, hrep, hperm⟩ := represents_fromDictionary hkeys
  obtain ⟨dict', d', hrun, hrep', halike⟩ := represents_run hrep us
  exact ⟨dict', d', d, hfrom ▸ hrun, hrep', hperm, hrep.ascending, halike⟩

omit [Std.TransCmp cmp] in
/-- A tree stays a tree, however few entries are left. -/
theorem run_tree (root : FLLRBNode κ ν) (us : List (Update κ ν)) :
    ∃ root', Runs.run (update cmp) (some (tree root)) us = some (tree root') := by
  induction us generalizing root with
  | nil => exact ⟨root, rfl⟩
  | cons u us ih =>
    cases u with
    | insertKey key aValue => exact ih _
    | removeKey key => exact ih _

theorem exists_tree_run {start : List (κ × ν)} (hkeys : Sorted.Distinct cmp start)
    (hsize : arrayToTreeThreshold < start.length) (us : List (Update κ ν)) :
    ∃ root, Runs.run (update cmp) (fromDictionary cmp start) us = some (tree root) := by
  obtain ⟨dict, d, hfrom, hrep, hperm⟩ := represents_fromDictionary hkeys
  rw [hfrom]
  cases hrep with
  | array _ hle =>
    rw [hperm.length_eq] at hle
    exact absurd hsize (Nat.not_lt.mpr hle)
  | tree _ _ => exact run_tree _ us

theorem eq_tree_of_run {start : List (κ × ν)} (hkeys : Sorted.Distinct cmp start)
    (hsize : arrayToTreeThreshold < start.length) {us : List (Update κ ν)}
    {dict : FImmutableSortedDictionary κ ν}
    (hrun : Runs.run (update cmp) (fromDictionary cmp start) us = some dict) :
    ∃ root, dict = tree root := by
  obtain ⟨root, hroot⟩ := exists_tree_run hkeys hsize us
  exact ⟨root, Option.some.inj (hrun.symm.trans hroot)⟩

/-- Two dictionaries, each with its own history, are equal to `isEqual:`
exactly when no key tells them apart. -/
theorem isEqual_run [BEq ν] [LawfulBEq ν] {start start' : List (κ × ν)}
    (hkeys : Sorted.Distinct cmp start) (hkeys' : Sorted.Distinct cmp start')
    (us us' : List (Update κ ν)) :
    ∃ dict dict', Runs.run (update cmp) (fromDictionary cmp start) us = some dict ∧
      Runs.run (update cmp) (fromDictionary cmp start') us' = some dict' ∧
      (dict.isEqual cmp dict' = true ↔ ∀ key, dict.get cmp key = dict'.get cmp key) := by
  obtain ⟨dict, _, _, hrun, hrep, -⟩ := represents_run_fromDictionary hkeys us
  obtain ⟨dict', _, _, hrun', hrep', -⟩ := represents_run_fromDictionary hkeys' us'
  exact ⟨dict, dict', hrun, hrun', isEqual_iff hrep hrep'⟩

theorem isEqual_run_two_trees :
    ∃ root root' : FLLRBNode Nat Nat,
      Runs.run (update compare) (fromDictionary compare ((List.range 26).map fun i => (i, i)))
        [.insertKey 26 26] = some (tree root) ∧
      Runs.run (update compare) (fromDictionary compare ((List.range 28).map fun i => (i, i)))
        [.removeKey 27] = some (tree root') ∧
      ((tree root).isEqual compare (tree root') = true ↔
        ∀ key, (tree root).get compare key = (tree root').get compare key) := by
  have hkeys : Sorted.Distinct compare ((List.range 26).map fun i => (i, i)) := by decide
  have hkeys' : Sorted.Distinct compare ((List.range 28).map fun i => (i, i)) := by decide
  obtain ⟨dict, dict', hrun, hrun', h⟩ :=
    isEqual_run hkeys hkeys' [.insertKey 26 26] [.removeKey 27]
  obtain ⟨root, rfl⟩ := eq_tree_of_run hkeys (by decide) hrun
  obtain ⟨root', rfl⟩ := eq_tree_of_run hkeys' (by decide) hrun'
  exact ⟨root, root', hrun, hrun', h⟩

/-- Whatever tree the updates lead to, `check` raises nothing on it, and
`checkMaxDepth` answers YES where the root has that method. -/
theorem check_run {start : List (κ × ν)} (hkeys : Sorted.Distinct cmp start)
    {us : List (Update κ ν)} {root : FLLRBNode κ ν}
    (hrun : Runs.run (update cmp) (fromDictionary cmp start) us = some (tree root)) :
    root.isRed = false ∧ (∃ blackDepth, root.check = some blackDepth) ∧
      (root.isEmpty = false → root.checkMaxDepth = some true) := by
  obtain ⟨dict, d', d, hrun', hrep, -⟩ := represents_run_fromDictionary hkeys us
  rw [hrun] at hrun'
  obtain rfl : tree root = dict := by simpa using hrun'
  cases hrep with
  | tree hbal _ =>
    refine ⟨hbal.isRed_eq, ⟨_, hbal.check⟩, fun hne => ?_⟩
    rw [checkMaxDepth_eq hne, hbal.check]
    simp [two_pow_le_count hbal]

theorem check_run_range :
    ∃ root : FLLRBNode Nat Nat,
      Runs.run (update compare) (fromDictionary compare ((List.range 26).map fun i => (i, i)))
        [.insertKey 26 26, .removeKey 3] = some (tree root) ∧
      root.isRed = false ∧ (∃ blackDepth, root.check = some blackDepth) ∧
        (root.isEmpty = false → root.checkMaxDepth = some true) := by
  have hkeys : Sorted.Distinct compare ((List.range 26).map fun i => (i, i)) := by decide
  obtain ⟨root, hroot⟩ := exists_tree_run hkeys (by decide) [.insertKey 26 26, .removeKey 3]
  exact ⟨root, hroot, check_run hkeys hroot⟩

end FImmutableSortedDictionary

end BetweenUS.FirebaseDatabase
