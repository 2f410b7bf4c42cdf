/-
BetweenUS.FirebaseDatabase.FSnapshotRoundTrip — the exported value of a
node is accepted by `nodeFrom` and gives the node back.

* `Exportable` — what an export keeps;
* `exported` — the node without the priorities, unless they are exported;
* `internalNodeFrom_valForExport` — by induction on the node. The children
  come back in a dictionary, or in an array whose positions are their keys;
* `nodeFrom_valForExport` — the same for every node that `nodeFrom` made.
-/
import BetweenUS.FirebaseDatabase.FSnapshotUtilitiesTheorems

namespace BetweenUS.FirebaseDatabase

open Model (FBValue)
open Manager (isValidKey)
open FValidation

namespace FSnapshotUtilities

/-! ## Integer keys -/

section IntegerKeys

variable {decimalDigit : Char → Bool}

variable (decimalDigit) in
theorem integerKeys_false (keys : List String) (maxKey : Nat) :
    (FNode.integerKeys decimalDigit keys (false, maxKey)).1 = false := by
  induction keys with
  | nil => rfl
  | cons key keys ih => simpa [FNode.integerKeys] using ih

/-- Keys that all count as integers, none of them with a leading zero and
none above the largest. -/
theorem integerKeys_spec {keys : List String} {maxKey largest : Nat}
    (h : FNode.integerKeys decimalDigit keys (true, maxKey) = (true, largest)) :
    maxKey ≤ largest ∧ ∀ key ∈ keys, ¬ (key.toList.head? = some '0' ∧ 1 < (utf16 key).length) ∧
      ∃ i, intForString decimalDigit key = some i ∧ i ≤ largest := by
  induction keys generalizing maxKey with
  | nil =>
    cases h
    simp
  | cons key keys ih =>
    rw [FNode.integerKeys, if_pos rfl] at h
    split at h
    · have hfalse := integerKeys_false decimalDigit keys maxKey
      rw [h] at hfalse
      cases hfalse
    · next hzero =>
      cases hint : intForString decimalDigit key with
      | none =>
        rw [hint] at h
        have hfalse := integerKeys_false decimalDigit keys maxKey
        rw [h] at hfalse
        cases hfalse
      | some i =>
        rw [hint] at h
        obtain ⟨hle, hkeys⟩ := ih h
        refine ⟨by omega, fun k hk => ?_⟩
        rcases List.mem_cons.mp hk with rfl | hk
        · exact ⟨hzero, i, hint, by omega⟩
        · exact hkeys k hk

theorem length_toList_le_utf16 (text : String) : text.toList.length ≤ (utf16 text).length := by
  rw [utf16]
  induction text.toList with
  | nil => simp
  | cons c cs ih =>
    have hc : 0 < (utf16Char c).length := List.length_pos_iff.mpr (utf16Char_ne_nil c)
    simp only [List.flatMap_cons, List.length_append, List.length_cons]
    omega

theorem eq_digitChar_of_isDigit {c : Char} (h : c.isDigit = true) :
    c.toNat - '0'.toNat < 10 ∧ (c.toNat - '0'.toNat).digitChar = c := by
  obtain ⟨hlow, hhigh⟩ : 48 ≤ c.toNat ∧ c.toNat ≤ 57 := by
    simpa [Char.isDigit, UInt32.le_iff_toNat_le] using h
  obtain ⟨d, hd, hc⟩ : ∃ d, d < 10 ∧ c.toNat = 48 + d := ⟨c.toNat - 48, by omega, by omega⟩
  have hzero : '0'.toNat = 48 := rfl
  rw [hzero, hc, Nat.add_sub_cancel_left]
  refine ⟨hd, Char.toNat_inj.mp ?_⟩
  rw [hc]
  interval_cases d <;> rfl

/-- Digits without a leading zero are how their number is written. -/
theorem toDigits_ofDigitChars {digits : List Char} (hdigits : ∀ c ∈ digits, c.isDigit = true)
    (hne : digits ≠ []) (hzero : digits.head? = some '0' → digits.length ≤ 1) :
    Nat.toDigits 10 (Nat.ofDigitChars 10 digits 0) = digits := by
  induction digits using List.reverseRecOn with
  | nil => exact (hne rfl).elim
  | append_singleton digits c ih =>
    obtain ⟨hlt, hchar⟩ := eq_digitChar_of_isDigit (hdigits c (by simp))
    rw [Nat.ofDigitChars_append, Nat.ofDigitChars_cons, Nat.ofDigitChars_nil]
    by_cases hdigits' : digits = []
    · subst hdigits'
      rw [Nat.ofDigitChars_nil, Nat.mul_zero, Nat.zero_add, Nat.toDigits_of_lt_base hlt, hchar]
      rfl
    · have hhead : digits.head? ≠ some '0' := by
        intro hhead
        have hlen := hzero (by rw [List.head?_append_of_ne_nil _ hdigits', hhead])
        exact hdigits' (by simpa using hlen)
      have hrec := ih (fun c hc => hdigits c (List.mem_append_left _ hc)) hdigits'
        fun h => (hhead h).elim
      have hpos : 0 < Nat.ofDigitChars 10 digits 0 := by
        rw [Nat.pos_iff_ne_zero]
        intro h
        rw [h, Nat.toDigits_zero] at hrec
        exact hhead (by rw [← hrec]; rfl)
      rw [← Nat.toDigits_append_toDigits (by decide) hpos hlt, hrec,
        Nat.toDigits_of_lt_base hlt, hchar]

/-- A key that counts as an integer is how that integer is written, unless
it holds foreign digits or the integer is too large. -/
theorem eq_toString_of_intForString {key : String} {i : Nat}
    (hascii : ∀ c ∈ key.toList, decimalDigit c = true → c.isDigit = true)
    (hzero : ¬ (key.toList.head? = some '0' ∧ 1 < (utf16 key).length))
    (hint : intForString decimalDigit key = some i) (hi : i < 2 ^ 63 - 1) : key = toString i := by
  rw [intForString] at hint
  split at hint
  · next hall =>
    have hdigits : ∀ c ∈ key.toList, c.isDigit = true := fun c hc =>
      hascii c hc (List.all_eq_true.mp hall c hc)
    rw [scanInteger, List.takeWhile_eq_self_iff.mpr hdigits] at hint
    cases hkey : key.toList with
    | nil =>
      rw [hkey] at hint
      cases hint
    | cons c cs =>
      rw [hkey] at hint
      dsimp only at hint
      obtain rfl : Nat.ofDigitChars 10 (c :: cs) 0 = i := by
        have := Option.some.inj hint
        omega
      rw [← String.toList_inj, Nat.toString_eq_repr, Nat.toList_repr, hkey,
        toDigits_ofDigitChars (hkey ▸ hdigits) (by simp)]
      intro hhead
      have hlen := length_toList_le_utf16 key
      rw [hkey] at hlen hzero
      by_contra hlong
      exact hzero ⟨hhead, by omega⟩
  · cases hint

end IntegerKeys

/-! ## Round trip -/

mutual

/-- The node without what is not exported. -/
def exported (exp : Bool) : Node → Node
  | .leaf value priority => .leaf value (if exp then priority else none)
  | .children priority entries =>
      .children (if exp then priority else none) (exportedEntries exp entries)

def exportedEntries (exp : Bool) : List (String × Node) → List (String × Node)
  | [] => []
  | (key, childNode) :: rest => (key, exported exp childNode) :: exportedEntries exp rest

end

theorem exportedEntries_eq_map (exp : Bool) (entries : List (String × Node)) :
    exportedEntries exp entries = entries.map fun x => (x.1, exported exp x.2) := by
  induction entries with
  | nil => rfl
  | cons x entries ih => rw [exportedEntries, ih, List.map_cons]

theorem valsForExport_eq_map (decimalDigit : Char → Bool) (exp : Bool)
    (entries : List (String × Node)) : FNode.valsForExport decimalDigit exp entries =
      entries.map fun x => (x.1, x.2.valForExport decimalDigit exp) := by
  induction entries with
  | nil => rfl
  | cons x entries ih => rw [FNode.valsForExport, ih, List.map_cons]

theorem isEmpty_exported (exp : Bool) (n : Node) : (exported exp n).isEmpty = n.isEmpty := by
  cases n with
  | leaf value priority => rw [exported]; rfl
  | children priority entries =>
    rw [exported, exportedEntries_eq_map]
    cases entries <;> rfl

/-- What an export keeps. A leaf that holds `null` is one with its priority
only, and where positions may come back as an array, no key has foreign
digits. -/
inductive Exportable (decimalDigit : Char → Bool) (exp : Bool) : Node → Prop
  | leaf (value priority) : (value = .null → exp = true ∧ priority ≠ none) →
      Exportable decimalDigit exp (.leaf value priority)
  | children (priority entries) :
      (exp = false →
        ∀ x ∈ entries, ∀ c ∈ x.1.toList, decimalDigit c = true → c.isDigit = true) →
      (∀ x ∈ entries, Exportable decimalDigit exp x.2) →
      Exportable decimalDigit exp (.children priority entries)

mutual

theorem exported_true : ∀ n : Node, exported true n = n
  | .leaf value priority => by rw [exported, if_pos rfl]
  | .children priority entries => by rw [exported, if_pos rfl, exportedEntries_true entries]

theorem exportedEntries_true : ∀ entries : List (String × Node),
    exportedEntries true entries = entries
  | [] => by rw [exportedEntries]
  | (key, childNode) :: rest => by
    rw [exportedEntries, exported_true childNode, exportedEntries_true rest]

end

section RoundTrip

variable {fn : String} {depth : Nat} {path : List String} {decimalDigit : Char → Bool}

/-- A loop over children that each come back as a node. -/
theorem childrenFrom_map {entries : List (String × Node)} {f : Node → FBValue} {g : Node → Node}
    (h : ∀ x ∈ entries, isValidKey x.1 = true ∧ (g x.2).isEmpty = false ∧
      internalNodeFrom fn (depth + 1) (path ++ [x.1]) .null (f x.2) = .ok (g x.2)) :
    childrenFrom fn depth path (entries.map fun x => (x.1, f x.2)) =
      .ok (entries.map fun x => (x.1, g x.2)) := by
  induction entries with
  | nil => rw [List.map_nil, childrenFrom]; rfl
  | cons x entries ih =>
    obtain ⟨hkey, hempty, hchild⟩ := h x List.mem_cons_self
    have hrest := ih fun y hy => h y (List.mem_cons_of_mem x hy)
    exact childrenFrom_cons_eq_ok_iff.mpr (.inr ⟨hkey, _, _, hchild, hrest, by simp [hempty]⟩)

theorem childrenFrom_append {entries entries' : List (String × FBValue)}
    {children children' : List (String × Node)}
    (h : childrenFrom fn depth path entries = .ok children)
    (h' : childrenFrom fn depth path entries' = .ok children') :
    childrenFrom fn depth path (entries ++ entries') = .ok (children ++ children') := by
  induction entries generalizing children with
  | nil =>
    obtain rfl : [] = children := by simpa [childrenFrom, pure, Except.pure] using h
    exact h'
  | cons x entries ih =>
    rw [List.cons_append]
    rcases childrenFrom_cons_eq_ok_iff.mp h with ⟨hmeta, hkey, hrest⟩ | ⟨hkey, childNode, others,
      hchild, hothers, rfl⟩
    · exact childrenFrom_cons_eq_ok_iff.mpr (.inl ⟨hmeta, hkey, ih hrest⟩)
    · refine childrenFrom_cons_eq_ok_iff.mpr (.inr ⟨hkey, _, _, hchild, ih hothers, ?_⟩)
      split <;> rfl

theorem childrenFrom_metadata {key : String} (value : FBValue)
    (h : key ∈ [kPayloadPriority, kPayloadValue, kServerValueSubKey]) :
    childrenFrom fn depth path [(key, value)] = .ok [] := by
  refine childrenFrom_cons_eq_ok_iff.mpr (.inl ⟨?_, ?_, by rw [childrenFrom]; rfl⟩)
  · simp only [List.mem_cons, List.not_mem_nil, or_false] at h
    rcases h with rfl | rfl | rfl <;> decide
  · rw [validDictionaryKey, if_neg]
    simp only [List.mem_cons, List.not_mem_nil, or_false] at h
    rintro ⟨h₁, h₂, h₃, -⟩
    rcases h with rfl | rfl | rfl
    · exact h₁ rfl
    · exact h₂ rfl
    · exact h₃ rfl

/-- The loop over an array that has a node or nothing at each position. -/
theorem elementsFrom_map {f : Nat → FBValue} {g : Nat → Node}
    (h : ∀ i, internalNodeFrom fn (depth + 1) (path ++ [toString i]) .null (f i) = .ok (g i))
    (start count : Nat) :
    elementsFrom fn depth path start ((List.range' start count).map f) =
      .ok ((List.range' start count).filterMap fun i =>
        if (g i).isEmpty then none else some (toString i, g i)) := by
  induction count generalizing start with
  | zero => rw [List.range'_zero, List.map_nil, elementsFrom]; rfl
  | succ count ih =>
    rw [List.range'_succ, List.map_cons]
    refine elementsFrom_cons_eq_ok_iff.mpr ⟨_, _, h start, ih (start + 1), ?_⟩
    cases hempty : (g start).isEmpty <;> simp [hempty]

/-- A leaf value that is not `null` is accepted as it is. -/
theorem internalNodeFrom_leafValue {value : FBValue} (hdepth : depth ≤ kFirebaseMaxObjectDepth)
    (hleaf : isLeafValue value = true) (hnull : value ≠ .null) :
    internalNodeFrom fn depth path .null value = .ok (.leaf value none) := by
  cases value with
  | null => exact (hnull rfl).elim
  | bool b => exact (internalNodeFrom_scalar_eq_ok_iff rfl).mpr ⟨hdepth, rfl, hleaf, rfl⟩
  | number q => exact (internalNodeFrom_scalar_eq_ok_iff rfl).mpr ⟨hdepth, rfl, hleaf, rfl⟩
  | string s => exact (internalNodeFrom_scalar_eq_ok_iff rfl).mpr ⟨hdepth, rfl, hleaf, rfl⟩
  | array vs => cases hleaf
  | dict dval =>
    obtain ⟨value, rfl⟩ := isServerValue_iff.mp hleaf
    exact internalNodeFrom_dict_eq_ok_iff.mpr
      ⟨hdepth, rfl, rfl, .inr (.inl ⟨rfl, hleaf, rfl⟩)⟩

theorem priorityOf_of_ne_null {value : FBValue} (h : value ≠ .null) :
    priorityOf value = some value := by
  cases value with
  | null => exact (h rfl).elim
  | _ => rfl

/-- A dictionary of children, with or without their priority. -/
theorem internalNodeFrom_children {entries : List (String × FBValue)} {priority : Option FBValue}
    {children : List (String × Node)} {n : Node} (hdepth : depth ≤ kFirebaseMaxObjectDepth)
    (hpriority : ∀ p ∈ priority, isPriority p = true ∧ p ≠ .null)
    (hkeys : ∀ x ∈ entries, isValidKey x.1 = true)
    (hchildren : childrenFrom fn depth path entries = .ok children)
    (hn : childrenNode priority children = .ok n) :
    internalNodeFrom fn depth path .null
      (.dict (entries ++ priority.toList.map fun p => (kPayloadPriority, p))) = .ok n := by
  have hlookup : ∀ key, isMetadata key = true →
      (entries ++ priority.toList.map fun p => (kPayloadPriority, p)).lookup key =
        (priority.toList.map fun p => (kPayloadPriority, p)).lookup key := by
    intro key hmeta
    rw [List.lookup_append, lookup_of_isValidKey hkeys hmeta, Option.none_or]
  rw [internalNodeFrom_dict_eq_ok_iff, rawPriority, hlookup _ rfl, hlookup _ rfl, hlookup _ rfl]
  cases priority with
  | none =>
    refine ⟨hdepth, rfl, rfl, .inr (.inr ⟨rfl, rfl, children, ?_, hn⟩)⟩
    simpa using hchildren
  | some p =>
    obtain ⟨hp, hnull⟩ := hpriority p rfl
    refine ⟨hdepth, rfl, hp, .inr (.inr ⟨rfl, rfl, children, ?_, ?_⟩)⟩
    · have hmeta : childrenFrom fn depth path [(kPayloadPriority, p)] = .ok [] :=
        childrenFrom_metadata p List.mem_cons_self
      simpa using childrenFrom_append hchildren hmeta
    · rw [← hn]
      exact congrArg (childrenNode · children) (priorityOf_of_ne_null hnull)

/-- The positions of an array hold the children they came from. -/
theorem perm_positions {entries : List (String × Node)}
    (hasc : Sorted.Ascending keyComparator entries) (hempty : ∀ x ∈ entries, x.2.isEmpty = false)
    {largest : Nat} (hkeys : ∀ x ∈ entries, ∃ i, i ≤ largest ∧ x.1 = toString i) :
    entries.Perm ((List.range' 0 (largest + 1)).filterMap fun i =>
      let n := (entries.lookup (toString i)).getD .emptyNode
      if n.isEmpty then none else some (toString i, n)) := by
  have hlookup : ∀ {k n}, entries.lookup k = some n ↔ (k, n) ∈ entries :=
    Sorted.lookup_eq_some_iff_mem hasc.nodup_keys
  rw [List.perm_ext_iff_of_nodup hasc.nodup_keys.of_map]
  · rintro ⟨key, n⟩
    simp only [List.mem_filterMap, List.mem_range'_1]
    constructor
    · intro hmem
      obtain ⟨i, hi, hkey⟩ := hkeys _ hmem
      dsimp only at hkey
      subst hkey
      refine ⟨i, by omega, ?_⟩
      rw [hlookup.mpr hmem, Option.getD_some, if_neg (by simp [hempty _ hmem])]
    · rintro ⟨i, -, hi⟩
      split at hi
      · cases hi
      · next hne =>
        cases hi
        rw [← hlookup]
        cases hget : entries.lookup (toString i) with
        | none =>
          rw [hget] at hne
          exact (hne rfl).elim
        | some n => rfl
  · refine List.Nodup.filterMap (fun i j x hi hj => ?_) List.nodup_range'
    dsimp only at hi hj
    split at hi
    · cases hi
    · split at hj
      · cases hj
      · have hkey : toString i = toString j := by
          have hi := congrArg Prod.fst (Option.mem_some.mp hi)
          have hj := congrArg Prod.fst (Option.mem_some.mp hj)
          exact hi.trans hj.symm
        simpa [Nat.toString_eq_repr, Nat.repr_inj] using hkey

/-- A leaf without a priority to export is its value. -/
theorem valForExport_leaf (value : FBValue) {priority : Option FBValue} {exp : Bool}
    (h : (if exp then priority else none) = none) :
    FNode.valForExport decimalDigit exp (.leaf value priority) = value := by
  cases exp with
  | false => rw [FNode.valForExport]; simp
  | true =>
    obtain rfl : priority = none := h
    rw [FNode.valForExport]; simp

theorem twiceNumKeys_lt (numKeys : Nat) : FNode.twiceNumKeys numKeys < 2 ^ 31 :=
  Int.bmod_lt (by decide)

/-- A dictionary, with the priority if it is exported, or an array. -/
theorem exportChildren_cases (decimalDigit : Char → Bool) (exp : Bool) (priority : Option FBValue)
    (obj : List (String × FBValue)) :
    FNode.exportChildren decimalDigit exp priority obj =
        .dict (obj ++ (if exp then priority else none).toList.map fun p =>
          (kPayloadPriority, p)) ∨
      exp = false ∧ ∃ largest, largest < 2 ^ 31 ∧
        FNode.integerKeys decimalDigit (obj.map Prod.fst) (true, 0) = (true, largest) ∧
        FNode.exportChildren decimalDigit exp priority obj =
          .array ((List.range' 0 (largest + 1)).map fun i =>
            (obj.lookup (toString i)).getD .null) := by
  cases hkeys : FNode.integerKeys decimalDigit (obj.map Prod.fst) (true, 0) with
  | mk allIntegerKeys largest =>
    unfold FNode.exportChildren
    rw [hkeys]
    dsimp only
    split
    · next harray =>
      simp only [Bool.and_eq_true, Bool.not_eq_true', decide_eq_true_eq] at harray
      obtain ⟨⟨hexp, hall⟩, hlt⟩ := harray
      subst hall
      have hint := hlt.trans (twiceNumKeys_lt obj.length)
      exact .inr ⟨hexp, largest, by omega, rfl, by rw [List.range_eq_range']⟩
    · left
      cases exp with
      | false => simp
      | true => cases priority <;> simp

/-- Children with distinct keys in order are a node as they are. -/
theorem childrenNode_of_perm {priority : Option FBValue} {entries children : List (String × Node)}
    (hasc : Sorted.Ascending keyComparator entries) (hne : entries ≠ [])
    (hperm : entries.Perm children) :
    childrenNode priority children = .ok (.children priority entries) := by
  refine childrenNode_eq_ok_iff.mpr (.inr ⟨?_, entries, ?_, rfl⟩)
  · rintro rfl
    exact hne hperm.eq_nil
  · exact sortedEntries_eq_some_iff_perm.mpr ⟨hasc, hperm⟩

section Children

variable {exp : Bool} {priority : Option FBValue} {entries : List (String × Node)}
  (hdepth : depth < kFirebaseMaxObjectDepth)
  (hpriority : ∀ p ∈ priority, isPriority p = true ∧ p ≠ .null)
  (hasc : Sorted.Ascending keyComparator entries) (hne : entries ≠ [])
  (hkeys : ∀ x ∈ entries, isValidKey x.1 = true)
  (hempty : ∀ x ∈ entries, x.2.isEmpty = false)
  (hdigits : exp = false →
    ∀ x ∈ entries, ∀ c ∈ x.1.toList, decimalDigit c = true → c.isDigit = true)
  (hback : ∀ x ∈ entries, ∀ path',
    internalNodeFrom fn (depth + 1) path' .null (x.2.valForExport decimalDigit exp) =
      .ok (exported exp x.2))

include hdepth hpriority hasc hne hkeys hempty hdigits hback

/-- The step of the round trip: children that come back, in a dictionary
or in an array. -/
theorem internalNodeFrom_exportChildren :
    internalNodeFrom fn depth path .null (FNode.exportChildren decimalDigit exp priority
        (entries.map fun x => (x.1, x.2.valForExport decimalDigit exp))) =
      .ok (.children (if exp then priority else none)
        (entries.map fun x => (x.1, exported exp x.2))) := by
  have hasc' : Sorted.Ascending keyComparator (entries.map fun x => (x.1, exported exp x.2)) :=
    List.pairwise_map.mpr hasc
  have hne' : (entries.map fun x => (x.1, exported exp x.2)) ≠ [] := by simpa using hne
  rcases exportChildren_cases decimalDigit exp priority
      (entries.map fun x => (x.1, x.2.valForExport decimalDigit exp)) with
    hdict | ⟨rfl, largest, hlt, hint, harray⟩
  · rw [hdict]
    have hloop : childrenFrom fn depth path
        (entries.map fun x => (x.1, x.2.valForExport decimalDigit exp)) =
          .ok (entries.map fun x => (x.1, exported exp x.2)) :=
      childrenFrom_map fun x hx =>
        ⟨hkeys x hx, by rw [isEmpty_exported, hempty x hx], hback x hx _⟩
    refine internalNodeFrom_children hdepth.le (fun p hp => ?_) (fun x hx => ?_) hloop
      (childrenNode_of_perm hasc' hne' (.refl _))
    · cases exp with
      | false => cases hp
      | true => exact hpriority p hp
    · obtain ⟨y, hy, rfl⟩ := List.mem_map.mp hx
      exact hkeys y hy
  · rw [harray]
    -- each key is how its position is written
    have hpositions : ∀ x ∈ entries.map fun x => (x.1, exported false x.2),
        ∃ i, i ≤ largest ∧ x.1 = toString i := by
      intro x hx
      obtain ⟨y, hy, rfl⟩ := List.mem_map.mp hx
      obtain ⟨hzero, i, hi, hle⟩ := (integerKeys_spec hint).2 y.1 (by
        rw [List.map_map]
        exact List.mem_map.mpr ⟨y, hy, rfl⟩)
      exact ⟨i, hle, eq_toString_of_intForString (hdigits rfl y hy) hzero hi (by omega)⟩
    have hempty' : ∀ x ∈ entries.map fun x => (x.1, exported false x.2), x.2.isEmpty = false := by
      intro x hx
      obtain ⟨y, hy, rfl⟩ := List.mem_map.mp hx
      rw [isEmpty_exported, hempty y hy]
    -- and each position holds the child of that key, or nothing
    have helement : ∀ i : Nat, internalNodeFrom fn (depth + 1) (path ++ [toString i]) .null
        (((entries.map fun x => (x.1, x.2.valForExport decimalDigit false)).lookup
          (toString i)).getD .null) =
        .ok (((entries.map fun x => (x.1, exported false x.2)).lookup
          (toString i)).getD .emptyNode) := by
      intro i
      rw [Sorted.lookup_map, Sorted.lookup_map]
      cases hget : entries.lookup (toString i) with
      | none => exact internalNodeFrom_null_eq_ok_iff.mpr ⟨hdepth, rfl⟩
      | some n =>
        have hmem := (Sorted.lookup_eq_some_iff_mem hasc.nodup_keys).mp hget
        exact hback _ hmem _
    refine internalNodeFrom_array_eq_ok_iff.mpr
      ⟨hdepth.le, rfl, _, elementsFrom_map helement 0 (largest + 1), ?_⟩
    exact childrenNode_of_perm hasc' hne' (perm_positions hasc' hempty' hpositions)

end Children

/-- What was exported is accepted, and gives the node back. -/
theorem internalNodeFrom_valForExport {exp : Bool} {d : Nat} {n : Node} (h : Storable d n)
    (hexp : Exportable decimalDigit exp n) (hdepth : depth + d ≤ kFirebaseMaxObjectDepth) :
    internalNodeFrom fn depth path .null (n.valForExport decimalDigit exp) =
      .ok (exported exp n) := by
  induction h generalizing depth path with
  | leaf d value priority hleaf hpriority =>
    cases hexp with
    | leaf _ _ hnull =>
      rw [exported]
      cases hp : if exp then priority else none with
      | some p =>
        obtain ⟨rfl, rfl⟩ : exp = true ∧ priority = some p := by
          cases exp
          · cases hp
          · exact ⟨rfl, hp⟩
        obtain ⟨hvalid, hne⟩ := hpriority p rfl
        rw [FNode.valForExport]
        refine internalNodeFrom_dict_eq_ok_iff.mpr
          ⟨by omega, rfl, hvalid, .inl ⟨value, rfl, hleaf, ?_⟩⟩
        exact congrArg (FNode.leaf value) (priorityOf_of_ne_null hne).symm
      | none =>
        rw [valForExport_leaf value hp]
        refine internalNodeFrom_leafValue (by omega) hleaf fun hvalue => ?_
        obtain ⟨rfl, hsome⟩ := hnull hvalue
        exact hsome hp
  | empty d =>
    have hval : FNode.valForExport decimalDigit exp .emptyNode = .null := by
      simp [FNode.emptyNode, FNode.valForExport]
    have hexported : exported exp .emptyNode = .emptyNode := by
      simp [FNode.emptyNode, exported, exportedEntries]
    rw [hval, hexported]
    exact internalNodeFrom_null_eq_ok_iff.mpr ⟨by omega, rfl⟩
  | children d priority e entries hpriority hasc hkeys hstorable hempty ih =>
    cases hexp with
    | children _ _ hdigits hchild =>
      have hback : ∀ x ∈ e :: entries, ∀ path',
          internalNodeFrom fn (depth + 1) path' .null (x.2.valForExport decimalDigit exp) =
            .ok (exported exp x.2) := fun x hx path' => ih x hx (hchild x hx) (by omega)
      rw [FNode.valForExport, exported, exportedEntries_eq_map, valsForExport_eq_map,
        if_neg (by simp)]
      exact internalNodeFrom_exportChildren (by omega) hpriority hasc (by simp) hkeys hempty
        hdigits hback

end RoundTrip

/-- Every accepted value, exported with its priorities and accepted again,
is the same node. Exported without them it is the node without them. -/
theorem nodeFrom_valForExport (decimalDigit : Char → Bool) {fn : String} {priority val : FBValue}
    {n : Node} (h : nodeFrom fn priority val = .ok n) (fn' : String) :
    (Exportable decimalDigit true n →
        nodeFrom fn' .null (n.valForExport decimalDigit true) = .ok n) ∧
      (Exportable decimalDigit false n →
        nodeFrom fn' .null (n.val decimalDigit) = .ok (exported false n)) := by
  have hstorable := (storable_internalNodeFrom val h).2
  constructor
  · intro hexp
    refine (internalNodeFrom_valForExport hstorable hexp (by simp)).trans ?_
    rw [exported_true]
  · exact fun hexp => internalNodeFrom_valForExport hstorable hexp (by simp)

/-- An array with a position that is left out. -/
def positions : List FBValue := [.string "x", .null, .string "y"]

def positionsNode : Node :=
  .children none [("0", .leaf (.string "x") none), ("2", .leaf (.string "y") none)]

theorem nodeFrom_positions (fn : String) :
    nodeFrom fn .null (.array positions) = .ok positionsNode := by
  have hleaf : ∀ key s, internalNodeFrom fn 1 [key] .null (.string s) =
      .ok (.leaf (.string s) none) ↔ isLeafValue (.string s) = true := by
    intro key s
    rw [internalNodeFrom_scalar_eq_ok_iff rfl]
    simp [kFirebaseMaxObjectDepth, isPriority, priorityOf]
  refine internalNodeFrom_array_eq_ok_iff.mpr ⟨by decide, rfl,
    [("0", .leaf (.string "x") none), ("2", .leaf (.string "y") none)], ?_, ?_⟩
  · refine elementsFrom_cons_eq_ok_iff.mpr ⟨_, _, (hleaf _ _).mpr (by decide), ?_, rfl⟩
    refine elementsFrom_cons_eq_ok_iff.mpr
      ⟨_, _, internalNodeFrom_null_eq_ok_iff.mpr ⟨by decide, rfl⟩, ?_, rfl⟩
    refine elementsFrom_cons_eq_ok_iff.mpr ⟨_, [], (hleaf _ _).mpr (by decide), ?_, rfl⟩
    rw [elementsFrom]
    rfl
  · have hlt : keyComparator "0" "2" = .lt := by decide
    exact childrenNode_of_perm (by simpa [Sorted.Ascending] using hlt) (by simp) (.refl _)

/-- A node comes back with its priority, and positions come back through
an array. -/
theorem nodeFrom_valForExport_positions :
    nodeFrom "setValue:" .null (withPriorityNode.valForExport Char.isDigit true) =
        .ok withPriorityNode ∧
      positionsNode.val Char.isDigit = .array positions ∧
      nodeFrom "setValue:" .null (positionsNode.val Char.isDigit) =
        .ok (exported false positionsNode) := by
  refine ⟨?_, ?_, ?_⟩
  · refine (nodeFrom_valForExport Char.isDigit (nodeFrom_withPriority "setValue:") _).1 ?_
    refine .children _ _ (by simp) ?_
    intro x hx
    rw [List.mem_singleton.mp hx]
    exact .leaf _ _ (by simp)
  · rfl
  · refine (nodeFrom_valForExport Char.isDigit (nodeFrom_positions "setValue:") _).2 ?_
    refine .children _ _ (fun _ x hx c hc hdigit => hdigit) ?_
    intro x hx
    simp only [List.mem_cons, List.not_mem_nil, or_false] at hx
    rcases hx with rfl | rfl <;> exact .leaf _ _ (by simp)

end FSnapshotUtilities

end BetweenUS.FirebaseDatabase
