/-
BetweenUS.FirebaseDatabase.FSnapshotUtilitiesTheorems — what `nodeFrom`
accepts is a well-formed node, and the exported value of a node is accepted
and gives it back.
-/
import BetweenUS.FirebaseDatabase.FSnapshotUtilities

namespace BetweenUS.FirebaseDatabase

open Model (FBValue)
open Manager (isValidKey)
open FValidation

namespace FSnapshotUtilities

/-! ## What the checks accept -/

/-- A dictionary that stands for a value of the server. -/
def isServerValue (dval : List (String × FBValue)) : Bool :=
  (dval.lookup kServerValueSubKey).isSome && decide (dval.length ≤ 1)

def isLeafValue : FBValue → Bool
  | .string theString => decide (theString.utf8ByteSize ≤ kFirebaseMaxLeafSize)
  | .dict dval => isServerValue dval
  | .array _ => false
  | _ => true

def isPriority : FBValue → Bool
  | .string theString => decide (theString.utf8ByteSize ≤ kFirebaseMaxLeafSize)
  | .dict dval => isServerValue dval
  | .number _ => true
  | .null => true
  | _ => false

/-- The priority that a value stands for. -/
def priorityOf : FBValue → Option FBValue
  | .null => none
  | value => some value

theorem bind_eq_ok_iff {ε α β : Type} {x : Except ε α} {f : α → Except ε β} {b : β} :
    x >>= f = .ok b ↔ ∃ a, x = .ok a ∧ f a = .ok b := by
  cases x with
  | error e => simp [bind, Except.bind]
  | ok a => simp [bind, Except.bind]

theorem ok_bind {ε α β : Type} (a : α) (f : α → Except ε β) : Except.ok a >>= f = f a := rfl

theorem isServerValue_iff {dval : List (String × FBValue)} :
    isServerValue dval = true ↔ ∃ value, dval = [(kServerValueSubKey, value)] := by
  rw [isServerValue, Bool.and_eq_true, decide_eq_true_eq]
  constructor
  · rintro ⟨hsome, hlen⟩
    cases dval with
    | nil => cases hsome
    | cons x dval =>
      obtain rfl : dval = [] := List.eq_nil_of_length_eq_zero (by simpa using hlen)
      obtain ⟨key, value⟩ := x
      refine ⟨value, ?_⟩
      by_cases hkey : kServerValueSubKey = key
      · rw [hkey]
      · have hne : (kServerValueSubKey == key) = false := beq_false_of_ne hkey
        simp [List.lookup, hne] at hsome
  · rintro ⟨value, rfl⟩
    simp

theorem isValidLeafValue_eq_ok_true_iff (fn : String) (path : List String) {value : FBValue} :
    isValidLeafValue fn path value = .ok true ↔ isLeafValue value = true := by
  cases value with
  | string s =>
    simp only [isValidLeafValue, isLeafValue, decide_eq_true_eq]
    split <;> simp_all
  | dict dval =>
    simp only [isValidLeafValue, isLeafValue, isServerValue, Bool.and_eq_true, decide_eq_true_eq]
    split
    · split <;> simp_all
    · simp_all
  | null => simp [isValidLeafValue, isLeafValue]
  | bool b => simp [isValidLeafValue, isLeafValue]
  | number q => simp [isValidLeafValue, isLeafValue]
  | array vs => simp [isValidLeafValue, isLeafValue]

theorem priorityFrom_eq_ok_iff {fn : String} {path : List String} {value : FBValue}
    {priority : Option FBValue} : priorityFrom fn path value = .ok priority ↔
      isPriority value = true ∧ priority = priorityOf value := by
  cases value with
  | string s =>
    simp only [priorityFrom, isValidPriorityValue, isValidLeafValue, isPriority, priorityOf,
      decide_eq_true_eq, ok_bind]
    split
    · simp_all [bind, Except.bind]
    · simp_all [ok_bind, pure, Except.pure, eq_comm]
  | dict dval =>
    simp only [priorityFrom, isValidPriorityValue, isValidLeafValue, isPriority, priorityOf,
      isServerValue, Bool.and_eq_true, decide_eq_true_eq]
    split
    · split
      · simp_all [bind, Except.bind]
      · simp_all only [ok_bind, pure, Except.pure, Except.ok.injEq, not_lt, true_and]
        exact eq_comm
    · simp_all [bind, Except.bind]
  | null => simp [priorityFrom, isValidPriorityValue, isPriority, priorityOf, ok_bind, pure,
      Except.pure, eq_comm]
  | bool b => simp [priorityFrom, isValidPriorityValue, isPriority, bind, Except.bind]
  | number q => simp [priorityFrom, isValidPriorityValue, isValidLeafValue, isPriority, priorityOf,
      ok_bind, pure, Except.pure, eq_comm]
  | array vs => simp [priorityFrom, isValidPriorityValue, isPriority, bind, Except.bind]

theorem leafFrom_eq_ok_iff {fn : String} {path : List String} {value : FBValue}
    {priority : Option FBValue} {n : Node} : leafFrom fn path value priority = .ok n ↔
      isLeafValue value = true ∧ n = .leaf value priority := by
  rw [leafFrom, bind_eq_ok_iff, ← isValidLeafValue_eq_ok_true_iff fn path]
  constructor
  · rintro ⟨valid, hvalid, hn⟩
    cases valid with
    | true => exact ⟨hvalid, by simpa [pure, Except.pure, eq_comm] using hn⟩
    | false => cases hn
  · rintro ⟨hvalid, rfl⟩
    exact ⟨true, hvalid, rfl⟩

/-! ## Keys -/

theorem isMetadata_of_isValidKey {key : String} (h : isValidKey key = true) :
    isMetadata key = false := by
  rw [isValidKey, Bool.and_eq_true, List.all_eq_true] at h
  rw [isMetadata, decide_eq_false_iff_not]
  intro hdot
  have hmem : '.' ∈ key.toList := List.mem_of_mem_head? hdot
  exact absurd (h.2 '.' hmem) (by decide)

theorem validDictionaryKey_of_isValidKey (fn : String) (path : List String) {key : String}
    (h : isValidKey key = true) : validDictionaryKey fn path key = .ok () := by
  simp [validDictionaryKey, h]

/-- A key that is checked and not skipped names a child. -/
theorem isValidKey_of_validDictionaryKey {fn : String} {path : List String} {key : String}
    (h : validDictionaryKey fn path key = .ok ()) (hmeta : isMetadata key = false) :
    isValidKey key = true := by
  rw [validDictionaryKey] at h
  split at h
  · cases h
  · next hkey =>
    have hreserved : ∀ reserved ∈ [kPayloadPriority, kPayloadValue, kServerValueSubKey],
        key ≠ reserved := by
      rintro reserved hmem rfl
      revert hmeta
      simp only [List.mem_cons, List.not_mem_nil, or_false] at hmem
      rcases hmem with rfl | rfl | rfl <;> decide
    simpa [hreserved] using hkey

/-- No child goes by a reserved name. -/
theorem lookup_of_isValidKey {α : Type} {entries : List (String × α)}
    (h : ∀ x ∈ entries, isValidKey x.1 = true) {key : String} (hmeta : isMetadata key = true) :
    entries.lookup key = none := by
  rw [List.lookup_eq_none_iff]
  intro x hx
  rw [bne_iff_ne]
  rintro rfl
  rw [isMetadata_of_isValidKey (h x hx)] at hmeta
  cases hmeta

theorem isDigit_of_mem_toString {i : Nat} {c : Char} (h : c ∈ (toString i).toList) :
    c.isDigit = true := by
  rw [Nat.toString_eq_repr, Nat.toList_repr] at h
  exact Nat.isDigit_of_mem_toDigits (by decide) (by decide) h

theorem isValidKey_toString (i : Nat) : isValidKey (toString i) = true := by
  rw [isValidKey, Bool.and_eq_true, List.all_eq_true]
  constructor
  · simp [Nat.toString_eq_repr, ← String.toList_inj, Nat.toList_repr, Nat.toDigits_ne_nil]
  · intro c hc
    have hdigit := isDigit_of_mem_toString hc
    rw [Bool.not_eq_true', List.contains_eq_mem, decide_eq_false_iff_not]
    intro hmem
    simp only [Manager.invalidKeyCharacters, List.mem_cons, List.not_mem_nil, or_false] at hmem
    rcases hmem with rfl | rfl | rfl | rfl | rfl | rfl <;> exact absurd hdigit (by decide)

/-! ## What is accepted -/

/-- Well-formed nodes with at most `d` levels below them. -/
inductive Storable : Nat → Node → Prop
  | leaf (d value priority) : isLeafValue value = true →
      (∀ p ∈ priority, isPriority p = true ∧ p ≠ .null) → Storable d (.leaf value priority)
  | empty (d) : Storable d .emptyNode
  | children (d priority e entries) : (∀ p ∈ priority, isPriority p = true ∧ p ≠ .null) →
      Sorted.Ascending keyComparator (e :: entries) →
      (∀ x ∈ e :: entries, isValidKey x.1 = true) → (∀ x ∈ e :: entries, Storable d x.2) →
      (∀ x ∈ e :: entries, x.2.isEmpty = false) → Storable (d + 1) (.children priority (e :: entries))

theorem mem_priorityOf {value p : FBValue} (h : isPriority value = true)
    (hp : p ∈ priorityOf value) : isPriority p = true ∧ p ≠ .null := by
  cases value with
  | null => simp [priorityOf] at hp
  | bool b => cases h
  | number q => simp_all [priorityOf, isPriority, eq_comm]
  | string s => 
    obtain rfl : FBValue.string s = p := by simpa [priorityOf] using hp
    exact ⟨h, by simp⟩
  | array vs => cases h
  | dict dval => 
    obtain rfl : FBValue.dict dval = p := by simpa [priorityOf] using hp
    exact ⟨h, by simp⟩

theorem childrenNode_eq_ok_iff {priority : Option FBValue} {children : List (String × Node)}
    {n : Node} : childrenNode priority children = .ok n ↔
      children = [] ∧ n = .emptyNode ∨ children ≠ [] ∧ ∃ entries,
        sortedEntries keyComparator children = some entries ∧ n = .children priority entries := by
  cases children with
  | nil => simp [childrenNode, eq_comm]
  | cons e children =>
    simp only [childrenNode, ← FImmutableSortedDictionary.map_enumerate_fromDictionary]
    cases FImmutableSortedDictionary.fromDictionary keyComparator (e :: children) with
    | none => simp
    | some dict => simp [eq_comm]

/-- The children node of storable children. -/
theorem storable_childrenNode {d : Nat} {priority : Option FBValue}
    {children : List (String × Node)} {n : Node}
    (hpriority : ∀ p ∈ priority, isPriority p = true ∧ p ≠ .null)
    (hchildren : ∀ x ∈ children, isValidKey x.1 = true ∧ x.2.isEmpty = false ∧
      ∃ d', d = d' + 1 ∧ Storable d' x.2)
    (h : childrenNode priority children = .ok n) : Storable d n := by
  rcases childrenNode_eq_ok_iff.mp h with ⟨-, rfl⟩ | ⟨hne, entries, hsorted, rfl⟩
  · exact .empty d
  · obtain ⟨hasc, hperm⟩ := ascending_of_sortedEntries hsorted
    cases entries with
    | nil => exact (hne hperm.symm.eq_nil).elim
    | cons e entries =>
      have hmem : ∀ x ∈ e :: entries, x ∈ children := fun x hx => hperm.mem_iff.mp hx
      obtain ⟨-, -, d', rfl, -⟩ := hchildren e (hmem e List.mem_cons_self)
      refine .children d' priority e entries hpriority hasc
        (fun x hx => (hchildren x (hmem x hx)).1) (fun x hx => ?_)
        fun x hx => (hchildren x (hmem x hx)).2.1
      obtain ⟨-, -, d'', hd, hstorable⟩ := hchildren x (hmem x hx)
      obtain rfl : d' = d'' := by omega
      exact hstorable

/-! ### The cases of `internalNodeFrom` -/

section Cases

variable {fn : String} {depth : Nat} {path : List String} {aPriority : FBValue} {n : Node}

theorem internalNodeFrom_null_eq_ok_iff :
    internalNodeFrom fn depth path aPriority .null = .ok n ↔
      depth ≤ kFirebaseMaxObjectDepth ∧ n = .emptyNode := by
  rw [internalNodeFrom]
  split
  · simp_all [throw, throwThe, MonadExceptOf.throw]
  · simp_all [pure, Except.pure, eq_comm]

/-- A boolean, a number or a text. -/
def isScalar : FBValue → Bool
  | .bool _ => true
  | .number _ => true
  | .string _ => true
  | _ => false

theorem internalNodeFrom_scalar_eq_ok_iff {value : FBValue} (h : isScalar value = true) :
    internalNodeFrom fn depth path aPriority value = .ok n ↔
      depth ≤ kFirebaseMaxObjectDepth ∧ isPriority aPriority = true ∧
        isLeafValue value = true ∧ n = .leaf value (priorityOf aPriority) := by
  have heq : internalNodeFrom fn depth path aPriority value =
      if kFirebaseMaxObjectDepth < depth then throw (depthExceeded fn path)
      else priorityFrom fn path aPriority >>= leafFrom fn path value := by
    cases value with
    | bool b => rw [internalNodeFrom] <;> simp
    | number q => rw [internalNodeFrom] <;> simp
    | string s => rw [internalNodeFrom] <;> simp
    | null => cases h
    | array vs => cases h
    | dict dval => cases h
  rw [heq]
  split
  · simp_all [throw, throwThe, MonadExceptOf.throw]
  · next hdepth =>
    simp only [bind_eq_ok_iff, priorityFrom_eq_ok_iff, leafFrom_eq_ok_iff]
    constructor
    · rintro ⟨priority, ⟨hpriority, rfl⟩, hvalue, rfl⟩
      exact ⟨not_lt.mp hdepth, hpriority, hvalue, rfl⟩
    · rintro ⟨-, hpriority, hvalue, rfl⟩
      exact ⟨_, ⟨hpriority, rfl⟩, hvalue, rfl⟩

theorem internalNodeFrom_array_eq_ok_iff {aval : List FBValue} :
    internalNodeFrom fn depth path aPriority (.array aval) = .ok n ↔
      depth ≤ kFirebaseMaxObjectDepth ∧ isPriority aPriority = true ∧
        ∃ children, elementsFrom fn depth path 0 aval = .ok children ∧
          childrenNode (priorityOf aPriority) children = .ok n := by
  rw [internalNodeFrom]
  split
  · simp_all [throw, throwThe, MonadExceptOf.throw]
  · next hdepth =>
    simp only [bind_eq_ok_iff, priorityFrom_eq_ok_iff]
    constructor
    · rintro ⟨priority, ⟨hpriority, rfl⟩, hchildren⟩
      exact ⟨not_lt.mp hdepth, hpriority, hchildren⟩
    · rintro ⟨-, hpriority, hchildren⟩
      exact ⟨_, ⟨hpriority, rfl⟩, hchildren⟩

/-- The priority that counts for a dictionary. -/
def rawPriority (aPriority : FBValue) (dict : List (String × FBValue)) : FBValue :=
  (dict.lookup kPayloadPriority).getD aPriority

theorem dictPriority_eq_ok_iff {dict : List (String × FBValue)} {priority : Option FBValue} :
    dictPriority fn path aPriority dict = .ok priority ↔ isPriority aPriority = true ∧
      isPriority (rawPriority aPriority dict) = true ∧
        priority = priorityOf (rawPriority aPriority dict) := by
  rw [dictPriority, bind_eq_ok_iff, rawPriority]
  simp only [priorityFrom_eq_ok_iff]
  cases dict.lookup kPayloadPriority with
  | none =>
    simp only [pure, Except.pure, Except.ok.injEq, Option.getD_none]
    constructor
    · rintro ⟨_, ⟨hpriority, rfl⟩, rfl⟩
      exact ⟨hpriority, hpriority, rfl⟩
    · rintro ⟨hpriority, -, rfl⟩
      exact ⟨_, ⟨hpriority, rfl⟩, rfl⟩
  | some raw =>
    simp only [priorityFrom_eq_ok_iff, Option.getD_some]
    constructor
    · rintro ⟨_, ⟨hpriority, -⟩, hraw⟩
      exact ⟨hpriority, hraw⟩
    · rintro ⟨hpriority, hraw⟩
      exact ⟨_, ⟨hpriority, rfl⟩, hraw⟩

theorem internalNodeFrom_dict_eq_ok_iff {dict : List (String × FBValue)} :
    internalNodeFrom fn depth path aPriority (.dict dict) = .ok n ↔
      depth ≤ kFirebaseMaxObjectDepth ∧ isPriority aPriority = true ∧
        isPriority (rawPriority aPriority dict) = true ∧
        ((∃ value, dict.lookup kPayloadValue = some value ∧ isLeafValue value = true ∧
            n = .leaf value (priorityOf (rawPriority aPriority dict))) ∨
          dict.lookup kPayloadValue = none ∧ isServerValue dict = true ∧
            n = .leaf (.dict dict) (priorityOf (rawPriority aPriority dict)) ∨
          dict.lookup kPayloadValue = none ∧ dict.lookup kServerValueSubKey = none ∧
            ∃ children, childrenFrom fn depth path dict = .ok children ∧
              childrenNode (priorityOf (rawPriority aPriority dict)) children = .ok n) := by
  -- what follows once the priority is known
  have hvalue : ∀ priority, (do
      if ← isValidLeafValue fn path (.dict dict) then return .leaf (.dict dict) priority
      else childrenNode priority (← childrenFrom fn depth path dict)) = Except.ok n ↔
        isServerValue dict = true ∧ n = .leaf (.dict dict) priority ∨
        dict.lookup kServerValueSubKey = none ∧ ∃ children,
          childrenFrom fn depth path dict = .ok children ∧
            childrenNode priority children = .ok n := by
    intro priority
    rw [bind_eq_ok_iff]
    constructor
    · rintro ⟨valid, hvalid, hn⟩
      cases valid with
      | true =>
        refine .inl ⟨(isValidLeafValue_eq_ok_true_iff fn path).mp hvalid, ?_⟩
        simpa [pure, Except.pure, eq_comm] using hn
      | false =>
        refine .inr ⟨?_, bind_eq_ok_iff.mp hn⟩
        rw [isValidLeafValue] at hvalid
        split at hvalid
        · split at hvalid <;> cases hvalid
        · next hsv => exact Option.not_isSome_iff_eq_none.mp hsv
    · rintro (⟨hserver, rfl⟩ | ⟨hsv, hn⟩)
      · exact ⟨true, (isValidLeafValue_eq_ok_true_iff fn path).mpr hserver, rfl⟩
      · exact ⟨false, by simp [isValidLeafValue, hsv], bind_eq_ok_iff.mpr hn⟩
  rw [internalNodeFrom]
  split
  · simp_all [throw, throwThe, MonadExceptOf.throw]
  · next hdepth =>
    rw [bind_eq_ok_iff]
    simp only [dictPriority_eq_ok_iff]
    cases hlookup : dict.lookup kPayloadValue with
    | some value =>
      simp only [leafFrom_eq_ok_iff]
      constructor
      · rintro ⟨_, ⟨hpriority, hraw, rfl⟩, hleaf⟩
        exact ⟨not_lt.mp hdepth, hpriority, hraw, .inl ⟨value, rfl, hleaf⟩⟩
      · rintro ⟨-, hpriority, hraw, ⟨_, hv, hleaf⟩ | ⟨hv, -⟩ | ⟨hv, -⟩⟩
        · cases hv
          exact ⟨_, ⟨hpriority, hraw, rfl⟩, hleaf⟩
        · cases hv
        · cases hv
    | none =>
      simp only [hvalue]
      constructor
      · rintro ⟨_, ⟨hpriority, hraw, rfl⟩, hserver | hchildren⟩
        · exact ⟨not_lt.mp hdepth, hpriority, hraw, .inr (.inl ⟨trivial, hserver⟩)⟩
        · exact ⟨not_lt.mp hdepth, hpriority, hraw, .inr (.inr ⟨trivial, hchildren⟩)⟩
      · rintro ⟨-, hpriority, hraw, ⟨_, hv, -⟩ | ⟨-, hserver⟩ | ⟨-, hchildren⟩⟩
        · cases hv
        · exact ⟨_, ⟨hpriority, hraw, rfl⟩, .inl hserver⟩
        · exact ⟨_, ⟨hpriority, hraw, rfl⟩, .inr hchildren⟩

end Cases

theorem childrenFrom_cons_eq_ok_iff {fn : String} {depth : Nat} {path : List String} {key : String}
    {value : FBValue} {rest : List (String × FBValue)} {children : List (String × Node)} :
    childrenFrom fn depth path ((key, value) :: rest) = .ok children ↔
      isMetadata key = true ∧ validDictionaryKey fn path key = .ok () ∧
        childrenFrom fn depth path rest = .ok children ∨
      isValidKey key = true ∧ ∃ childNode others,
        internalNodeFrom fn (depth + 1) (path ++ [key]) .null value = .ok childNode ∧
        childrenFrom fn depth path rest = .ok others ∧
        children = if childNode.isEmpty then others else (key, childNode) :: others := by
  rw [childrenFrom, bind_eq_ok_iff]
  cases hmeta : isMetadata key with
  | true =>
    simp only [if_true]
    constructor
    · rintro ⟨_, hkey, hrest⟩
      exact .inl ⟨trivial, hkey, hrest⟩
    · rintro (⟨-, hkey, hrest⟩ | ⟨hkey, -⟩)
      · exact ⟨_, hkey, hrest⟩
      · rw [isMetadata_of_isValidKey hkey] at hmeta
        cases hmeta
  | false =>
    simp only [Bool.false_eq_true, if_false, bind_eq_ok_iff, pure, Except.pure, Except.ok.injEq]
    constructor
    · rintro ⟨_, hkey, childNode, hchild, others, hothers, rfl⟩
      exact .inr ⟨isValidKey_of_validDictionaryKey hkey hmeta, childNode, others, hchild, hothers,
        rfl⟩
    · rintro (⟨hfalse, -⟩ | ⟨hkey, childNode, others, hchild, hothers, rfl⟩)
      · exact hfalse.elim
      · exact ⟨_, validDictionaryKey_of_isValidKey fn path hkey, childNode, hchild, others, hothers,
          rfl⟩

theorem elementsFrom_cons_eq_ok_iff {fn : String} {depth : Nat} {path : List String} {i : Nat}
    {value : FBValue} {rest : List FBValue} {children : List (String × Node)} :
    elementsFrom fn depth path i (value :: rest) = .ok children ↔ ∃ childNode others,
        internalNodeFrom fn (depth + 1) (path ++ [toString i]) .null value = .ok childNode ∧
        elementsFrom fn depth path (i + 1) rest = .ok others ∧
        children = if childNode.isEmpty then others else (toString i, childNode) :: others := by
  rw [elementsFrom]
  simp only [bind_eq_ok_iff, pure, Except.pure, Except.ok.injEq]
  constructor
  · rintro ⟨childNode, hchild, others, hothers, rfl⟩
    exact ⟨childNode, others, hchild, hothers, rfl⟩
  · rintro ⟨childNode, others, hchild, hothers, rfl⟩
    exact ⟨childNode, hchild, others, hothers, rfl⟩

/-- A child that a loop collects: it has a legal key, is not empty and is
one level further down. -/
def Collected (depth : Nat) (x : String × Node) : Prop :=
  isValidKey x.1 = true ∧ x.2.isEmpty = false ∧
    ∃ d, kFirebaseMaxObjectDepth - depth = d + 1 ∧ Storable d x.2

theorem collected_ite {depth : Nat} {key : String} {childNode : Node}
    {others : List (String × Node)} (hkey : isValidKey key = true)
    (hchild : depth + 1 ≤ kFirebaseMaxObjectDepth ∧
      Storable (kFirebaseMaxObjectDepth - (depth + 1)) childNode)
    (hothers : ∀ x ∈ others, Collected depth x) :
    ∀ x ∈ if childNode.isEmpty then others else (key, childNode) :: others,
      Collected depth x := by
  intro x hx
  split at hx
  · exact hothers x hx
  · next hempty =>
    rcases List.mem_cons.mp hx with rfl | hx
    · obtain ⟨hdepth, hstorable⟩ := hchild
      exact ⟨hkey, by simpa using hempty, _, by omega, hstorable⟩
    · exact hothers x hx

mutual

/-- What is accepted is well formed. -/
theorem storable_internalNodeFrom {fn : String} {depth : Nat} {path : List String}
    {aPriority : FBValue} {n : Node} : ∀ val : FBValue,
    internalNodeFrom fn depth path aPriority val = .ok n →
      depth ≤ kFirebaseMaxObjectDepth ∧ Storable (kFirebaseMaxObjectDepth - depth) n
  | .null, h => by
    obtain ⟨hdepth, rfl⟩ := internalNodeFrom_null_eq_ok_iff.mp h
    exact ⟨hdepth, .empty _⟩
  | .bool b, h => by
    obtain ⟨hdepth, hpriority, hleaf, rfl⟩ := (internalNodeFrom_scalar_eq_ok_iff rfl).mp h
    exact ⟨hdepth, .leaf _ _ _ hleaf fun _ hp => mem_priorityOf hpriority hp⟩
  | .number q, h => by
    obtain ⟨hdepth, hpriority, hleaf, rfl⟩ := (internalNodeFrom_scalar_eq_ok_iff rfl).mp h
    exact ⟨hdepth, .leaf _ _ _ hleaf fun _ hp => mem_priorityOf hpriority hp⟩
  | .string s, h => by
    obtain ⟨hdepth, hpriority, hleaf, rfl⟩ := (internalNodeFrom_scalar_eq_ok_iff rfl).mp h
    exact ⟨hdepth, .leaf _ _ _ hleaf fun _ hp => mem_priorityOf hpriority hp⟩
  | .array aval, h => by
    obtain ⟨hdepth, hpriority, children, hchildren, hn⟩ := internalNodeFrom_array_eq_ok_iff.mp h
    exact ⟨hdepth, storable_childrenNode (fun _ hp => mem_priorityOf hpriority hp)
      (collected_elementsFrom aval hchildren) hn⟩
  | .dict dict, h => by
    obtain ⟨hdepth, -, hraw, ⟨value, -, hleaf, rfl⟩ | ⟨-, hserver, rfl⟩ | ⟨-, -, children,
      hchildren, hn⟩⟩ := internalNodeFrom_dict_eq_ok_iff.mp h
    · exact ⟨hdepth, .leaf _ _ _ hleaf fun _ hp => mem_priorityOf hraw hp⟩
    · exact ⟨hdepth, .leaf _ _ _ hserver fun _ hp => mem_priorityOf hraw hp⟩
    · exact ⟨hdepth, storable_childrenNode (fun _ hp => mem_priorityOf hraw hp)
        (collected_childrenFrom dict hchildren) hn⟩

theorem collected_childrenFrom {fn : String} {depth : Nat} {path : List String}
    {children : List (String × Node)} : ∀ entries : List (String × FBValue),
    childrenFrom fn depth path entries = .ok children → ∀ x ∈ children, Collected depth x
  | [], h => by
    obtain rfl : [] = children := by simpa [childrenFrom, pure, Except.pure] using h
    simp
  | (key, value) :: rest, h => by
    rcases childrenFrom_cons_eq_ok_iff.mp h with ⟨-, -, hrest⟩ | ⟨hkey, childNode, others, hchild,
      hothers, rfl⟩
    · exact collected_childrenFrom rest hrest
    · exact collected_ite hkey (storable_internalNodeFrom value hchild)
        (collected_childrenFrom rest hothers)

theorem collected_elementsFrom {fn : String} {depth : Nat} {path : List String} {i : Nat}
    {children : List (String × Node)} : ∀ elements : List FBValue,
    elementsFrom fn depth path i elements = .ok children → ∀ x ∈ children, Collected depth x
  | [], h => by
    obtain rfl : [] = children := by simpa [elementsFrom, pure, Except.pure] using h
    simp
  | value :: rest, h => by
    obtain ⟨childNode, others, hchild, hothers, rfl⟩ := elementsFrom_cons_eq_ok_iff.mp h
    exact collected_ite (isValidKey_toString i) (storable_internalNodeFrom value hchild)
      (collected_elementsFrom rest hothers)

end

/-! ## Reordering -/

section Reordering

variable {fn : String} {depth : Nat} {path : List String}

/-- The same dictionary in another order, here or further down. -/
inductive Reordered : FBValue → FBValue → Prop
  | perm {dict dict'} : (dict.map Prod.fst).Nodup → dict.Perm dict' →
      Reordered (.dict dict) (.dict dict')
  | child {before key value value' after} : isMetadata key = false → Reordered value value' →
      Reordered (.dict (before ++ (key, value) :: after)) (.dict (before ++ (key, value') :: after))
  | element {before value value' after} : Reordered value value' →
      Reordered (.array (before ++ value :: after)) (.array (before ++ value' :: after))
  | refl (value) : Reordered value value
  | trans {value value' value''} : Reordered value value' → Reordered value' value'' →
      Reordered value value''

theorem childrenFrom_perm {dict dict' : List (String × FBValue)} (h : dict.Perm dict')
    {children : List (String × Node)} (hchildren : childrenFrom fn depth path dict = .ok children) :
    ∃ children', childrenFrom fn depth path dict' = .ok children' ∧ children.Perm children' := by
  induction h generalizing children with
  | nil => exact ⟨children, hchildren, .refl _⟩
  | cons x _ ih =>
    rcases childrenFrom_cons_eq_ok_iff.mp hchildren with ⟨hmeta, hkey, hrest⟩ | ⟨hkey, childNode,
      others, hchild, hothers, rfl⟩
    · obtain ⟨children', hrest', hperm⟩ := ih hrest
      exact ⟨children', childrenFrom_cons_eq_ok_iff.mpr (.inl ⟨hmeta, hkey, hrest'⟩), hperm⟩
    · obtain ⟨others', hothers', hperm⟩ := ih hothers
      refine ⟨_, childrenFrom_cons_eq_ok_iff.mpr
        (.inr ⟨hkey, childNode, others', hchild, hothers', rfl⟩), ?_⟩
      split
      · exact hperm
      · exact hperm.cons _
  | swap x y rest =>
    -- both are children, or one of them is skipped
    rcases childrenFrom_cons_eq_ok_iff.mp hchildren with ⟨hmeta, hkey, hrest⟩ | ⟨hkey, childNode,
      others, hchild, hothers, rfl⟩
    · rcases childrenFrom_cons_eq_ok_iff.mp hrest with ⟨hmeta', hkey', hrest'⟩ | ⟨hkey', childNode',
        others', hchild', hothers', rfl⟩
      · exact ⟨children, childrenFrom_cons_eq_ok_iff.mpr (.inl ⟨hmeta', hkey',
          childrenFrom_cons_eq_ok_iff.mpr (.inl ⟨hmeta, hkey, hrest'⟩)⟩), .refl _⟩
      · exact ⟨_, childrenFrom_cons_eq_ok_iff.mpr (.inr ⟨hkey', childNode', others', hchild',
          childrenFrom_cons_eq_ok_iff.mpr (.inl ⟨hmeta, hkey, hothers'⟩), rfl⟩), .refl _⟩
    · rcases childrenFrom_cons_eq_ok_iff.mp hothers with ⟨hmeta', hkey', hrest'⟩ | ⟨hkey',
        childNode', others', hchild', hothers', rfl⟩
      · exact ⟨_, childrenFrom_cons_eq_ok_iff.mpr (.inl ⟨hmeta', hkey',
          childrenFrom_cons_eq_ok_iff.mpr (.inr ⟨hkey, childNode, others, hchild, hrest', rfl⟩)⟩),
          .refl _⟩
      · refine ⟨_, childrenFrom_cons_eq_ok_iff.mpr (.inr ⟨hkey', childNode', _, hchild',
          childrenFrom_cons_eq_ok_iff.mpr (.inr ⟨hkey, childNode, others', hchild, hothers', rfl⟩),
          rfl⟩), ?_⟩
        split
        · split <;> exact .refl _
        · split
          · exact .refl _
          · exact .swap _ _ _
  | trans _ _ ih ih' =>
    obtain ⟨children', hchildren', hperm⟩ := ih hchildren
    obtain ⟨children'', hchildren'', hperm'⟩ := ih' hchildren'
    exact ⟨children'', hchildren'', hperm.trans hperm'⟩

theorem childrenNode_perm {priority : Option FBValue} {children children' : List (String × Node)}
    (hperm : children.Perm children') {n : Node} (h : childrenNode priority children = .ok n) :
    childrenNode priority children' = .ok n := by
  rcases childrenNode_eq_ok_iff.mp h with ⟨rfl, rfl⟩ | ⟨hne, entries, hsorted, rfl⟩
  · exact childrenNode_eq_ok_iff.mpr (.inl ⟨hperm.nil_eq.symm, rfl⟩)
  · obtain ⟨hasc, hentries⟩ := ascending_of_sortedEntries hsorted
    refine childrenNode_eq_ok_iff.mpr (.inr ⟨?_, entries, ?_, rfl⟩)
    · rintro rfl
      exact hne hperm.eq_nil
    · exact sortedEntries_eq_some_iff_perm.mpr ⟨hasc, hentries.trans hperm⟩

theorem childrenFrom_replace {key : String} {value value' : FBValue}
    (h : ∀ n, internalNodeFrom fn (depth + 1) (path ++ [key]) .null value = .ok n →
      internalNodeFrom fn (depth + 1) (path ++ [key]) .null value' = .ok n)
    {before after : List (String × FBValue)} {children : List (String × Node)}
    (hchildren : childrenFrom fn depth path (before ++ (key, value) :: after) = .ok children) :
    childrenFrom fn depth path (before ++ (key, value') :: after) = .ok children := by
  induction before generalizing children with
  | nil =>
    rcases childrenFrom_cons_eq_ok_iff.mp hchildren with hskip | ⟨hkey, childNode, others, hchild,
      hrest⟩
    · exact childrenFrom_cons_eq_ok_iff.mpr (.inl hskip)
    · exact childrenFrom_cons_eq_ok_iff.mpr
        (.inr ⟨hkey, childNode, others, h childNode hchild, hrest⟩)
  | cons x before ih =>
    rcases childrenFrom_cons_eq_ok_iff.mp hchildren with ⟨hmeta, hkey, hrest⟩ | ⟨hkey, childNode,
      others, hchild, hothers, hn⟩
    · exact childrenFrom_cons_eq_ok_iff.mpr (.inl ⟨hmeta, hkey, ih hrest⟩)
    · exact childrenFrom_cons_eq_ok_iff.mpr (.inr ⟨hkey, childNode, others, hchild, ih hothers, hn⟩)

theorem elementsFrom_replace {value value' : FBValue}
    (h : ∀ path n, internalNodeFrom fn (depth + 1) path .null value = .ok n →
      internalNodeFrom fn (depth + 1) path .null value' = .ok n)
    {before after : List FBValue} {i : Nat} {children : List (String × Node)}
    (hchildren : elementsFrom fn depth path i (before ++ value :: after) = .ok children) :
    elementsFrom fn depth path i (before ++ value' :: after) = .ok children := by
  induction before generalizing i children with
  | nil =>
    obtain ⟨childNode, others, hchild, hrest⟩ := elementsFrom_cons_eq_ok_iff.mp hchildren
    exact elementsFrom_cons_eq_ok_iff.mpr ⟨childNode, others, h _ childNode hchild, hrest⟩
  | cons x before ih =>
    obtain ⟨childNode, others, hchild, hothers, hn⟩ := elementsFrom_cons_eq_ok_iff.mp hchildren
    exact elementsFrom_cons_eq_ok_iff.mpr ⟨childNode, others, hchild, ih hothers, hn⟩

theorem lookup_replace {key reserved : String} (hkey : key ≠ reserved) (value value' : FBValue)
    (before after : List (String × FBValue)) :
    (before ++ (key, value) :: after).lookup reserved =
      (before ++ (key, value') :: after).lookup reserved := by
  have hne : (reserved == key) = false := beq_false_of_ne hkey.symm
  simp [List.lookup_append, List.lookup_cons, hne]

theorem ne_of_not_metadata {key reserved : String} (hkey : isMetadata key = false)
    (hreserved : isMetadata reserved = true) : key ≠ reserved := by
  rintro rfl
  rw [hkey] at hreserved
  cases hreserved

/-- The order in which dictionaries enumerate their keys does not matter. -/
theorem internalNodeFrom_reordered {value value' : FBValue} (h : Reordered value value')
    {aPriority : FBValue} {n : Node}
    (hn : internalNodeFrom fn depth path aPriority value = .ok n) :
    internalNodeFrom fn depth path aPriority value' = .ok n := by
  induction h generalizing depth path aPriority n with
  | @perm dict dict' hnodup hperm =>
    rw [internalNodeFrom_dict_eq_ok_iff, rawPriority] at hn ⊢
    simp only [← Sorted.lookup_perm hnodup hperm]
    obtain ⟨hdepth, hpriority, hraw, hcase⟩ := hn
    refine ⟨hdepth, hpriority, hraw, ?_⟩
    rcases hcase with hvalue | ⟨hnone, hserver, hleaf⟩ | ⟨hnone, hsv, children, hchildren, hnode⟩
    · exact .inl hvalue
    · obtain ⟨server, rfl⟩ := isServerValue_iff.mp hserver
      obtain rfl := List.singleton_perm.mp hperm
      exact .inr (.inl ⟨hnone, hserver, hleaf⟩)
    · obtain ⟨children', hchildren', hperm'⟩ := childrenFrom_perm hperm hchildren
      exact .inr (.inr ⟨hnone, hsv, children', hchildren', childrenNode_perm hperm' hnode⟩)
  | @child before key value value' after hmeta _ ih =>
    have hlookup : ∀ reserved, isMetadata reserved = true →
        (before ++ (key, value) :: after).lookup reserved =
          (before ++ (key, value') :: after).lookup reserved := fun reserved hreserved =>
      lookup_replace (ne_of_not_metadata hmeta hreserved) value value' before after
    rw [internalNodeFrom_dict_eq_ok_iff, rawPriority] at hn ⊢
    rw [← hlookup _ rfl, ← hlookup _ rfl, ← hlookup _ rfl]
    obtain ⟨hdepth, hpriority, hraw, hcase⟩ := hn
    refine ⟨hdepth, hpriority, hraw, ?_⟩
    rcases hcase with hvalue | ⟨-, hserver, -⟩ | ⟨hnone, hsv, children, hchildren, hnode⟩
    · exact .inl hvalue
    · -- a server value has no child beside it
      obtain ⟨server, heq⟩ := isServerValue_iff.mp hserver
      have hmem : (key, value) ∈ [(kServerValueSubKey, server)] := heq ▸ by simp
      obtain ⟨rfl, -⟩ := Prod.mk.inj (List.mem_singleton.mp hmem)
      cases hmeta
    · exact .inr (.inr ⟨hnone, hsv, children, childrenFrom_replace (fun _ => ih) hchildren, hnode⟩)
  | element _ ih =>
    obtain ⟨hdepth, hpriority, children, hchildren, hnode⟩ :=
      internalNodeFrom_array_eq_ok_iff.mp hn
    exact internalNodeFrom_array_eq_ok_iff.mpr
      ⟨hdepth, hpriority, children, elementsFrom_replace (fun _ _ => ih) hchildren, hnode⟩
  | refl => exact hn
  | trans _ _ ih ih' => exact ih' (ih hn)

end Reordering

/-- **What is accepted is well formed**: keys that are valid and ascend, no
empty child, leaves and priorities of the admitted types, and no more than
the admitted levels. -/
theorem storable_nodeFrom {fn : String} {priority value : FBValue} {n : Node}
    (h : nodeFrom fn priority value = .ok n) : Storable kFirebaseMaxObjectDepth n :=
  (storable_internalNodeFrom value h).2

/-- A dictionary with a priority and one child. -/
def withPriority : List (String × FBValue) := [(".priority", .number 1), ("a", .string "x")]

def withPriorityNode : Node := .children (some (.number 1)) [("a", .leaf (.string "x") none)]

theorem nodeFrom_withPriority (fn : String) :
    nodeFrom fn .null (.dict withPriority) = .ok withPriorityNode := by
  refine internalNodeFrom_dict_eq_ok_iff.mpr ⟨by decide, rfl, rfl, .inr (.inr
    ⟨by decide, by decide, [("a", .leaf (.string "x") none)], ?_, ?_⟩)⟩
  · have hchild : internalNodeFrom fn 1 ["a"] .null (.string "x") = .ok (.leaf (.string "x") none) :=
      (internalNodeFrom_scalar_eq_ok_iff rfl).mpr ⟨by decide, rfl, by decide, rfl⟩
    refine childrenFrom_cons_eq_ok_iff.mpr (.inl ⟨by decide, rfl, ?_⟩)
    refine childrenFrom_cons_eq_ok_iff.mpr (.inr ⟨by decide, _, [], hchild, ?_, rfl⟩)
    rw [childrenFrom]
    rfl
  · refine childrenNode_eq_ok_iff.mpr (.inr ⟨by simp, _, ?_, rfl⟩)
    exact sortedEntries_eq_some_iff_perm.mpr ⟨List.pairwise_singleton _ _, .refl _⟩

theorem storable_nodeFrom_withPriority : Storable kFirebaseMaxObjectDepth withPriorityNode :=
  storable_nodeFrom (nodeFrom_withPriority "setValue:")

/-- The order in which the dictionaries of a value are enumerated does not
matter. -/
theorem nodeFrom_reordered {fn : String} {priority value value' : FBValue} {n : Node}
    (h : Reordered value value') (hn : nodeFrom fn priority value = .ok n) :
    nodeFrom fn priority value' = .ok n :=
  internalNodeFrom_reordered h hn

theorem nodeFrom_reordered_withPriority :
    nodeFrom "setValue:" .null (.dict withPriority.reverse) = .ok withPriorityNode :=
  nodeFrom_reordered (.perm (by decide) withPriority.reverse_perm.symm)
    (nodeFrom_withPriority "setValue:")

end FSnapshotUtilities

end BetweenUS.FirebaseDatabase
