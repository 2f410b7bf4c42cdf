/-
BetweenUS.FirebaseDatabase.FSortedDictionaryEnumerator — the key
enumerators of the two sorted dictionaries
(`FTreeSortedDictionaryEnumerator.m`, `FArraySortedDictionary.m`).

The tree's enumerator keeps a stack of nodes whose keys are still to come.
`drain` collects what `nextObject` answers until it answers nil, with a
bound on the number of calls; the theorems say what any bound that is
large enough gives.
-/
import BetweenUS.FirebaseDatabase.FImmutableSortedDictionaryTheorems

namespace BetweenUS.FirebaseDatabase

open Sorted (Ascending)

variable {κ ν : Type} {cmp : κ → κ → Ordering}

/-! ## The code -/

/-- The state of a key enumerator. -/
inductive FKeyEnumerator (κ ν : Type) where
  | tree (stack : List (FLLRBNode κ ν)) (isReverse : Bool)
  | array (keys : List κ) (pos : Int) (reverse : Bool)

namespace FKeyEnumerator

/-- The loop that pushes a node and goes on to one side until it is empty. -/
def pushAll (isReverse : Bool) : FLLRBNode κ ν → List (FLLRBNode κ ν) → List (FLLRBNode κ ν)
  | .empty, stack => stack
  | .value k v c l r, stack =>
      if isReverse then pushAll isReverse r (.value k v c l r :: stack)
      else pushAll isReverse l (.value k v c l r :: stack)

/-- The loop of the tree enumerator's initialiser. Without a start key the
comparison counts as 1 before it is flipped for the reverse direction. -/
def initStack (cmp : κ → κ → Ordering) (startKey : Option κ) (isReverse : Bool) :
    FLLRBNode κ ν → List (FLLRBNode κ ν) → List (FLLRBNode κ ν)
  | .empty, stack => stack
  | .value k v c l r, stack =>
      let cmp₀ : Ordering :=
        match startKey with
        | some start => cmp k start
        | none => .gt
      match if isReverse then cmp₀.swap else cmp₀ with
      | .lt =>
          if isReverse then initStack cmp startKey isReverse l stack
          else initStack cmp startKey isReverse r stack
      | .eq => .value k v c l r :: stack
      | .gt =>
          if isReverse then initStack cmp startKey isReverse r (.value k v c l r :: stack)
          else initStack cmp startKey isReverse l (.value k v c l r :: stack)

def nextObject : FKeyEnumerator κ ν → Option (κ × FKeyEnumerator κ ν)
  | tree [] _ => none
  | tree (.empty :: _) _ => none
  | tree (.value k _ _ l r :: stack) isReverse =>
      some (k, tree (pushAll isReverse (if isReverse then l else r) stack) isReverse)
  | array keys pos reverse =>
      if 0 ≤ pos then do
        let key ← keys[pos.toNat]?
        some (key, array keys (if reverse then pos - 1 else pos + 1) reverse)
      else none

/-- What at most `n` calls of `nextObject` answer. -/
def drain : Nat → FKeyEnumerator κ ν → List κ
  | 0, _ => []
  | n + 1, enumerator =>
      match enumerator.nextObject with
      | none => []
      | some (key, enumerator') => key :: drain n enumerator'

end FKeyEnumerator

namespace FImmutableSortedDictionary

open FArraySortedDictionary

def keyEnumerator (cmp : κ → κ → Ordering) :
    FImmutableSortedDictionary κ ν → FKeyEnumerator κ ν
  | array keys _ => .array keys 0 false
  | tree root => .tree (FKeyEnumerator.initStack cmp none false root []) false

def keyEnumeratorFrom (cmp : κ → κ → Ordering) (startKey : κ) :
    FImmutableSortedDictionary κ ν → FKeyEnumerator κ ν
  | array keys _ => .array keys (findInsertPositionForKey cmp keys startKey) false
  | tree root => .tree (FKeyEnumerator.initStack cmp (some startKey) false root []) false

def reverseKeyEnumerator (cmp : κ → κ → Ordering) :
    FImmutableSortedDictionary κ ν → FKeyEnumerator κ ν
  | array keys _ => .array keys (keys.length - 1) true
  | tree root => .tree (FKeyEnumerator.initStack cmp none true root []) true

def reverseKeyEnumeratorFrom (cmp : κ → κ → Ordering) (startKey : κ) :
    FImmutableSortedDictionary κ ν → FKeyEnumerator κ ν
  | array keys _ =>
      let startPos := findInsertPositionForKey cmp keys startKey
      match keys[startPos]? with
      | some k =>
          if cmp k startKey = .eq then .array keys startPos true
          else .array keys (startPos - 1) true
      | none => .array keys (startPos - 1) true
  | tree root => .tree (FKeyEnumerator.initStack cmp (some startKey) true root []) true

end FImmutableSortedDictionary

/-! ## What an enumerator still has to answer -/

namespace FKeyEnumerator

open FLLRBNode

def keys (t : FLLRBNode κ ν) : List κ := t.inorder.map Prod.fst

/-- The keys of a subtree in the direction of the enumerator. -/
def directed (isReverse : Bool) (t : FLLRBNode κ ν) : List κ :=
  if isReverse then (keys t).reverse else keys t

/-- The keys that a stack still has to give: of each node its own key and
the subtree that comes after it. -/
def pending (isReverse : Bool) : List (FLLRBNode κ ν) → List κ
  | [] => []
  | .empty :: _ => []
  | .value k _ _ l r :: stack =>
      k :: directed isReverse (if isReverse then l else r) ++ pending isReverse stack

theorem pending_pushAll (isReverse : Bool) (t : FLLRBNode κ ν) (stack : List (FLLRBNode κ ν)) :
    pending isReverse (pushAll isReverse t stack) =
      directed isReverse t ++ pending isReverse stack := by
  induction t generalizing stack with
  | empty => cases isReverse <;> rfl
  | value k v c l r ihl ihr =>
    cases isReverse with
    | false => simp [pushAll, ihl, pending, directed, keys, inorder]
    | true => simp [pushAll, ihr, pending, directed, keys, inorder]

/-- Each call of `nextObject` gives the first of the pending keys. -/
theorem drain_tree (n : Nat) (stack : List (FLLRBNode κ ν)) (isReverse : Bool) :
    drain n (tree stack isReverse) = (pending isReverse stack).take n := by
  induction n generalizing stack with
  | zero => rfl
  | succ n ih =>
    rw [drain]
    rcases stack with _ | ⟨_ | ⟨k, v, c, l, r⟩, stack⟩
    · rfl
    · rfl
    · simp only [nextObject, ih, pending_pushAll, pending, List.cons_append, List.take_succ_cons]

theorem drain_array (n : Nat) (keys : List κ) (pos : Nat) :
    drain n (array keys pos false : FKeyEnumerator κ ν) = (keys.drop pos).take n := by
  induction n generalizing pos with
  | zero => rfl
  | succ n ih =>
    rw [drain, nextObject, if_pos (by omega), Int.toNat_natCast]
    cases hkey : keys[pos]? with
    | none =>
      have hlen : keys.length ≤ pos := List.getElem?_eq_none_iff.mp hkey
      simp [List.drop_eq_nil_of_le hlen]
    | some key =>
      obtain ⟨hlt, rfl⟩ := List.getElem?_eq_some_iff.mp hkey
      rw [List.drop_eq_getElem_cons hlt, List.take_succ_cons, ← ih]
      rfl

theorem drain_array_reverse (n : Nat) (keys : List κ) (pos : Nat) (h : pos ≤ keys.length) :
    drain n (array keys (pos - 1) true : FKeyEnumerator κ ν) =
      ((keys.take pos).reverse).take n := by
  induction n generalizing pos with
  | zero => rfl
  | succ n ih =>
    rw [drain, nextObject]
    cases pos with
    | zero => simp
    | succ pos =>
      have hlt : pos < keys.length := h
      have hpos : ((pos + 1 : Nat) : Int) - 1 = pos := by omega
      rw [hpos, if_pos (by omega), Int.toNat_natCast, List.getElem?_eq_getElem hlt,
        List.take_succ_eq_append_getElem hlt, List.reverse_append, List.reverse_singleton,
        List.singleton_append, List.take_succ_cons, ← ih pos (by omega)]
      rfl

/-! ### Where an enumerator starts -/

section Start

variable [Std.TransCmp cmp] {start : κ}

theorem keys_value (k : κ) (v : ν) (c : FLLRBColor) (l r : FLLRBNode κ ν) :
    keys (value k v c l r) = keys l ++ k :: keys r := by
  simp [keys, inorder]

/-- Keys below one that is not above the start are below the start. -/
theorem lt_start_of_above {d : List (κ × ν)} {k : κ} (h : Sorted.Above cmp k d)
    (hk : cmp k start ≠ .gt) : ∀ x ∈ d.map Prod.fst, cmp x start = .lt := by
  intro x hx
  obtain ⟨e, he, rfl⟩ := List.mem_map.mp hx
  cases hc : cmp k start with
  | lt => exact Std.TransCmp.lt_trans (h e he) hc
  | eq => exact Std.TransCmp.lt_of_lt_of_eq (h e he) hc
  | gt => exact (hk hc).elim

/-- Keys above one that is not below the start are above the start. -/
theorem gt_start_of_below {d : List (κ × ν)} {k : κ} (h : Sorted.Below cmp k d)
    (hk : cmp k start ≠ .lt) : ∀ x ∈ d.map Prod.fst, cmp x start = .gt := by
  intro x hx
  obtain ⟨e, he, rfl⟩ := List.mem_map.mp hx
  apply Std.OrientedCmp.gt_of_lt
  cases hc : cmp start k with
  | lt => exact Std.TransCmp.lt_trans hc (h e he)
  | eq => exact Std.TransCmp.lt_of_eq_of_lt hc (h e he)
  | gt => exact (hk (Std.OrientedCmp.lt_of_gt hc)).elim

omit [Std.TransCmp cmp] in
theorem filter_of_compare {ks : List κ} {o : Ordering} (h : ∀ x ∈ ks, cmp x start = o)
    (o' : Ordering) : ks.filter (fun x => cmp x start != o') = if o = o' then [] else ks := by
  split
  · next heq =>
    rw [List.filter_eq_nil_iff]
    intro x hx
    simp [h x hx, heq]
  · next hne =>
    rw [List.filter_eq_self]
    intro x hx
    simpa [h x hx] using hne

/-- From a start key on, the tree has the keys that are not below it. -/
theorem pending_initStack {t : FLLRBNode κ ν} (h : Ascending cmp t.inorder)
    (stack : List (FLLRBNode κ ν)) :
    pending false (initStack cmp (some start) false t stack) =
      (keys t).filter (fun k => cmp k start != .lt) ++ pending false stack := by
  induction t generalizing stack with
  | empty => rfl
  | value k v c l r ihl ihr =>
    obtain ⟨hl, hr, habove, hbelow⟩ := Sorted.ascending_append.mp h
    rw [initStack, keys_value, List.filter_append]
    cases hc : cmp k start with
    | lt =>
      have hle : cmp k start ≠ .gt := by simp [hc]
      have hleft : (keys l).filter (fun x => cmp x start != .lt) = [] :=
        filter_of_compare (lt_start_of_above habove hle) .lt
      simp [hc, ihr hr, hleft]
    | eq =>
      have hle : cmp k start ≠ .gt := by simp [hc]
      have hleft : (keys l).filter (fun x => cmp x start != .lt) = [] :=
        filter_of_compare (lt_start_of_above habove hle) .lt
      have hge : cmp k start ≠ .lt := by simp [hc]
      have hright : (keys r).filter (fun x => cmp x start != .lt) = keys r :=
        filter_of_compare (gt_start_of_below hbelow hge) .lt
      simp [hc, hleft, hright, pending, directed]
    | gt =>
      have hge : cmp k start ≠ .lt := by simp [hc]
      have hright : (keys r).filter (fun x => cmp x start != .lt) = keys r :=
        filter_of_compare (gt_start_of_below hbelow hge) .lt
      simp [hc, ihl hl, hright, pending, directed]

/-- In the reverse direction it has the keys that are not above it. -/
theorem pending_initStack_reverse {t : FLLRBNode κ ν} (h : Ascending cmp t.inorder)
    (stack : List (FLLRBNode κ ν)) :
    pending true (initStack cmp (some start) true t stack) =
      ((keys t).filter fun k => cmp k start != .gt).reverse ++ pending true stack := by
  induction t generalizing stack with
  | empty => rfl
  | value k v c l r ihl ihr =>
    obtain ⟨hl, hr, habove, hbelow⟩ := Sorted.ascending_append.mp h
    rw [initStack, keys_value, List.filter_append]
    cases hc : cmp k start with
    | lt =>
      have hle : cmp k start ≠ .gt := by simp [hc]
      have hleft : (keys l).filter (fun x => cmp x start != .gt) = keys l :=
        filter_of_compare (lt_start_of_above habove hle) .gt
      simp [hc, ihr hr, hleft, pending, directed]
    | eq =>
      have hle : cmp k start ≠ .gt := by simp [hc]
      have hleft : (keys l).filter (fun x => cmp x start != .gt) = keys l :=
        filter_of_compare (lt_start_of_above habove hle) .gt
      have hge : cmp k start ≠ .lt := by simp [hc]
      have hright : (keys r).filter (fun x => cmp x start != .gt) = [] :=
        filter_of_compare (gt_start_of_below hbelow hge) .gt
      simp [hc, hleft, hright, pending, directed]
    | gt =>
      have hge : cmp k start ≠ .lt := by simp [hc]
      have hright : (keys r).filter (fun x => cmp x start != .gt) = [] :=
        filter_of_compare (gt_start_of_below hbelow hge) .gt
      simp [hc, ihl hl, hright]

omit [Std.TransCmp cmp] in
theorem pending_initStack_none (t : FLLRBNode κ ν) (stack : List (FLLRBNode κ ν)) :
    pending false (initStack cmp none false t stack) = keys t ++ pending false stack := by
  induction t generalizing stack with
  | empty => rfl
  | value k v c l r ihl _ => simp [initStack, ihl, pending, directed, keys, inorder]

omit [Std.TransCmp cmp] in
/-- In the reverse direction and without a start key, the flipped
comparison passes over every node. -/
theorem initStack_none_reverse (t : FLLRBNode κ ν) (stack : List (FLLRBNode κ ν)) :
    initStack cmp none true t stack = stack := by
  induction t with
  | empty => rfl
  | value k v c l r ihl _ => simp [initStack, ihl]

/-! ### The array -/

theorem drop_findInsertPosition {d : List (κ × ν)} (h : Ascending cmp d) :
    (d.map Prod.fst).drop
        (FArraySortedDictionary.findInsertPositionForKey cmp (d.map Prod.fst) start) =
      (d.map Prod.fst).filter fun k => cmp k start != .lt := by
  induction d with
  | nil => rfl
  | cons e d ih =>
    obtain ⟨hbelow, hd⟩ := Sorted.ascending_cons.mp h
    simp only [List.map_cons, FArraySortedDictionary.findInsertPositionForKey]
    split
    · next hlt => simp [hlt, ih hd]
    · next hge =>
      have hrest := filter_of_compare (gt_start_of_below hbelow hge) .lt
      simp [hge, hrest]

/-- The position after the one at which the reverse enumerator starts. -/
def reverseEnd (cmp : κ → κ → Ordering) (start : κ) (keys : List κ) : Nat :=
  let startPos := FArraySortedDictionary.findInsertPositionForKey cmp keys start
  match keys[startPos]? with
  | some k => if cmp k start = .eq then startPos + 1 else startPos
  | none => startPos

variable (start) in
theorem take_reverseEnd {d : List (κ × ν)} (h : Ascending cmp d) :
    (d.map Prod.fst).take (reverseEnd cmp start (d.map Prod.fst)) =
        (d.map Prod.fst).filter (fun k => cmp k start != .gt) ∧
      reverseEnd cmp start (d.map Prod.fst) ≤ (d.map Prod.fst).length := by
  induction d with
  | nil => exact ⟨rfl, Nat.le_refl 0⟩
  | cons e d ih =>
    obtain ⟨hbelow, hd⟩ := Sorted.ascending_cons.mp h
    cases hc : cmp e.1 start with
    | lt =>
      -- the first key is passed, and the scan goes on in the rest
      have hnext : reverseEnd cmp start ((e :: d).map Prod.fst) =
          reverseEnd cmp start (d.map Prod.fst) + 1 := by
        simp only [reverseEnd, List.map_cons, FArraySortedDictionary.findInsertPositionForKey,
          hc, ↓reduceIte, List.getElem?_cons_succ]
        split
        · split <;> rfl
        · rfl
      obtain ⟨htake, hle⟩ := ih hd
      rw [hnext, List.map_cons, List.take_succ_cons, htake]
      exact ⟨by simp [hc], by simpa using hle⟩
    | eq =>
      have hrest : (d.map Prod.fst).filter (fun k => cmp k start != .gt) = [] :=
        filter_of_compare (gt_start_of_below hbelow (by rw [hc]; decide)) .gt
      simp [reverseEnd, FArraySortedDictionary.findInsertPositionForKey, hc, hrest]
    | gt =>
      have hrest : (d.map Prod.fst).filter (fun k => cmp k start != .gt) = [] :=
        filter_of_compare (gt_start_of_below hbelow (by rw [hc]; decide)) .gt
      simp [reverseEnd, FArraySortedDictionary.findInsertPositionForKey, hc, hrest]

end Start

end FKeyEnumerator

/-! ## Both implementations -/

namespace FImmutableSortedDictionary

open FKeyEnumerator

/-- What the enumerators answer when they are called until they answer nil. -/
structure EnumeratesKeys (cmp : κ → κ → Ordering) (dict : FImmutableSortedDictionary κ ν)
    (d : List (κ × ν)) : Prop where
  keyEnumerator : ∀ n, d.length ≤ n → (dict.keyEnumerator cmp).drain n = d.map Prod.fst
  keyEnumeratorFrom : ∀ n start, d.length ≤ n → (dict.keyEnumeratorFrom cmp start).drain n =
    (d.map Prod.fst).filter fun k => cmp k start != .lt
  reverseKeyEnumeratorFrom : ∀ n start, d.length ≤ n →
    (dict.reverseKeyEnumeratorFrom cmp start).drain n =
      ((d.map Prod.fst).filter fun k => cmp k start != .gt).reverse

theorem length_filter_keys_le (p : κ → Bool) (d : List (κ × ν)) :
    ((d.map Prod.fst).filter p).length ≤ d.length :=
  (List.length_filter_le p _).trans (List.length_map Prod.fst).le

theorem reverseKeyEnumeratorFrom_array (keys : List κ) (values : List ν) (start : κ) :
    (array keys values).reverseKeyEnumeratorFrom cmp start =
      .array keys ((reverseEnd cmp start keys : Int) - 1) true := by
  unfold reverseKeyEnumeratorFrom reverseEnd
  dsimp only
  split
  · split
    · simp
    · rfl
  · rfl

variable [Std.TransCmp cmp] {dict : FImmutableSortedDictionary κ ν} {d : List (κ × ν)}

theorem Represents.enumeratesKeys (h : Represents cmp dict d) : EnumeratesKeys cmp dict d := by
  constructor <;> cases h
  case keyEnumerator.array =>
    intro n hn
    exact (drain_array n _ 0).trans (List.take_of_length_le (by simpa using hn))
  case keyEnumerator.tree root _ _ _ =>
    intro n hn
    rw [FImmutableSortedDictionary.keyEnumerator, drain_tree, pending_initStack_none, pending,
      List.append_nil]
    exact List.take_of_length_le (by simpa [keys] using hn)
  case keyEnumeratorFrom.array hd _ =>
    intro n start hn
    refine (drain_array n _ _).trans ?_
    rw [drop_findInsertPosition hd]
    exact List.take_of_length_le ((length_filter_keys_le _ d).trans hn)
  case keyEnumeratorFrom.tree htree =>
    intro n start hn
    rw [FImmutableSortedDictionary.keyEnumeratorFrom, drain_tree, pending_initStack htree, pending,
      List.append_nil]
    exact List.take_of_length_le ((length_filter_keys_le _ _).trans hn)
  case reverseKeyEnumeratorFrom.array hd _ =>
    intro n start hn
    obtain ⟨htake, hle⟩ := take_reverseEnd start hd
    rw [reverseKeyEnumeratorFrom_array, drain_array_reverse _ _ _ hle, htake]
    exact List.take_of_length_le (by
      rw [List.length_reverse]
      exact (length_filter_keys_le _ d).trans hn)
  case reverseKeyEnumeratorFrom.tree htree =>
    intro n start hn
    rw [FImmutableSortedDictionary.reverseKeyEnumeratorFrom, drain_tree,
      pending_initStack_reverse htree, pending, List.append_nil]
    exact List.take_of_length_le (by
      rw [List.length_reverse]
      exact (length_filter_keys_le _ _).trans hn)

/-- Without a start key the two implementations part: the array gives all
keys from the last to the first, the tree gives none. -/
def reverseKeys (d : List (κ × ν)) : FImmutableSortedDictionary κ ν → List κ
  | array _ _ => (d.map Prod.fst).reverse
  | tree _ => []

omit [Std.TransCmp cmp] in
theorem Represents.reverseKeyEnumerator (h : Represents cmp dict d) {n : Nat}
    (hn : d.length ≤ n) : (dict.reverseKeyEnumerator cmp).drain n = reverseKeys d dict := by
  cases h with
  | array _ _ =>
    have hall := drain_array_reverse (ν := ν) n (d.map Prod.fst) _ (Nat.le_refl _)
    rw [List.take_length] at hall
    exact hall.trans (List.take_of_length_le (by simpa using hn))
  | tree _ _ =>
    rw [FImmutableSortedDictionary.reverseKeyEnumerator, drain_tree, initStack_none_reverse,
      pending, List.take_nil]
    rfl

/-- Through every sequence of updates, and whichever implementation it
leads to, a key enumerator passes exactly the keys on its side of the start
key, in ascending order or, in the reverse direction, in descending order. -/
theorem enumeratesKeys_run {start : List (κ × ν)} (hkeys : Sorted.Distinct cmp start)
    (us : List (Update κ ν)) :
    ∃ dict d' d, Runs.run (update cmp) (fromDictionary cmp start) us = some dict ∧
      EnumeratesKeys cmp dict d' ∧ Ascending cmp d' ∧ d.Perm start ∧ Ascending cmp d ∧
      Sorted.Alike cmp d' (Runs.run (updateEntries cmp) d us) := by
  obtain ⟨dict, d', d, hrun, hrep, hperm, hasc, halike⟩ := represents_run_fromDictionary hkeys us
  exact ⟨dict, d', d, hrun, hrep.enumeratesKeys, hrep.ascending, hperm, hasc, halike⟩

theorem enumeratesKeys_run_range :
    ∃ (root : FLLRBNode Nat Nat) (d' d : List (Nat × Nat)),
      Runs.run (update compare) (fromDictionary compare ((List.range 26).map fun i => (i, i)))
        [.insertKey 26 26, .removeKey 3] = some (tree root) ∧
      EnumeratesKeys compare (tree root) d' ∧ Ascending compare d' ∧
      d.Perm ((List.range 26).map fun i => (i, i)) ∧ Ascending compare d ∧
      Sorted.Alike compare d'
        (Runs.run (updateEntries compare) d [.insertKey 26 26, .removeKey 3]) := by
  have hkeys : Sorted.Distinct compare ((List.range 26).map fun i => (i, i)) := by decide
  obtain ⟨dict, d', d, hrun, h⟩ := enumeratesKeys_run hkeys [.insertKey 26 26, .removeKey 3]
  obtain ⟨root, rfl⟩ := eq_tree_of_run hkeys (by decide) hrun
  exact ⟨root, d', d, hrun, h⟩

/-- The reverse enumerator without a start key answers nil at once on every
dictionary that has become a tree; on an array it passes all keys, in
descending order. -/
theorem reverseKeyEnumerator_run {start : List (κ × ν)} (hkeys : Sorted.Distinct cmp start)
    (us : List (Update κ ν)) :
    ∃ dict d' d, Runs.run (update cmp) (fromDictionary cmp start) us = some dict ∧
      (∀ n, d'.length ≤ n → (dict.reverseKeyEnumerator cmp).drain n = reverseKeys d' dict) ∧
      Ascending cmp d' ∧ d.Perm start ∧ Ascending cmp d ∧
      Sorted.Alike cmp d' (Runs.run (updateEntries cmp) d us) := by
  obtain ⟨dict, d', d, hrun, hrep, hperm, hasc, halike⟩ := represents_run_fromDictionary hkeys us
  exact ⟨dict, d', d, hrun, fun n hn => hrep.reverseKeyEnumerator hn, hrep.ascending, hperm, hasc,
    halike⟩

theorem reverseKeyEnumerator_run_range :
    ∃ (root : FLLRBNode Nat Nat) (d' d : List (Nat × Nat)),
      Runs.run (update compare) (fromDictionary compare ((List.range 26).map fun i => (i, i)))
        [.insertKey 26 26, .removeKey 3] = some (tree root) ∧
      (∀ n, d'.length ≤ n → ((tree root).reverseKeyEnumerator compare).drain n = []) ∧
      Ascending compare d' ∧ d.Perm ((List.range 26).map fun i => (i, i)) ∧
      Ascending compare d ∧ Sorted.Alike compare d'
        (Runs.run (updateEntries compare) d [.insertKey 26 26, .removeKey 3]) := by
  have hkeys : Sorted.Distinct compare ((List.range 26).map fun i => (i, i)) := by decide
  obtain ⟨dict, d', d, hrun, h⟩ := reverseKeyEnumerator_run hkeys [.insertKey 26 26, .removeKey 3]
  obtain ⟨root, rfl⟩ := eq_tree_of_run hkeys (by decide) hrun
  exact ⟨root, d', d, hrun, h⟩

end FImmutableSortedDictionary

end BetweenUS.FirebaseDatabase
