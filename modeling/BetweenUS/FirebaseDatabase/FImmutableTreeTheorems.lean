/-
BetweenUS.FirebaseDatabase.FImmutableTreeTheorems — what each operation of
a tree does to the value at every place.

`Good` trees keep no empty child, so that two of them with the same values
are the same tree (`eq_of_valueAtPath`): from there on a tree is the function
`valueAtPath`, and the operations are those of an overlay
(`Storage.PathWrites`). `mem_forEach`: the block is called with exactly the
values of the tree.
-/
import BetweenUS.FirebaseDatabase.FImmutableTree
import BetweenUS.Storage.PathWrites

namespace BetweenUS.FirebaseDatabase

open FKey (stringComparator)

namespace FImmutableTree

variable {κ α : Type} [FKey κ]

/-! ## Children -/

theorem good_empty : Good (empty : FImmutableTree κ α) :=
  .node none [] List.Pairwise.nil (by simp) (by simp)

theorem good_initWithValue (aValue : Option α) :
    Good (initWithValue aValue : FImmutableTree κ α) :=
  .node aValue [] List.Pairwise.nil (by simp) (by simp)

omit [FKey κ] in
theorem eq_empty {t : FImmutableTree κ α} (h : t.isEmpty = true) : t = empty := by
  cases t with
  | node value children =>
    cases value with
    | none =>
      have hnil : children = [] := by simpa [isEmpty, value, FImmutableTree.children] using h
      rw [hnil, empty]
    | some v => simp [isEmpty, value] at h

theorem Good.ascending {t : FImmutableTree κ α} (h : Good t) :
    Sorted.Ascending stringComparator t.children := by
  cases h with
  | node _ _ hasc => exact hasc

theorem Good.getChild? {t c : FImmutableTree κ α} (h : Good t) {k : κ}
    (hget : t.getChild? k = some c) : Good c ∧ c.isEmpty = false := by
  cases h with
  | node value children hasc hgood hne =>
    have hmem := (Sorted.get_eq_some_iff hasc).mp hget
    exact ⟨hgood _ hmem, hne _ hmem⟩

theorem Good.child {t : FImmutableTree κ α} (h : Good t) (k : κ) : Good (t.child k) := by
  unfold FImmutableTree.child
  cases hget : t.getChild? k with
  | none => exact good_empty
  | some c => exact (h.getChild? hget).1

section Replace

variable {cs : List (κ × FImmutableTree κ α)} {v : Option α}
  {c : FImmutableTree κ α} {k : κ}

theorem child_insert [DecidableEq κ] (h : Sorted.Ascending stringComparator cs) (k' : κ) :
    child (node v (Sorted.insert stringComparator k c cs)) k' =
      if k' = k then c else child (node v cs) k' := by
  have hcmp : (stringComparator k' k = .eq) ↔ k' = k := Std.LawfulEqCmp.compare_eq_iff_eq
  simp only [child, FImmutableTree.getChild?, children, Sorted.get_insert h, hcmp]
  split <;> rfl

theorem child_replaceChild [DecidableEq κ] (h : Sorted.Ascending stringComparator cs) (k' : κ) :
    child (node v (replaceChild cs k c)) k' = if k' = k then c else child (node v cs) k' := by
  have hcmp : (stringComparator k' k = .eq) ↔ k' = k := Std.LawfulEqCmp.compare_eq_iff_eq
  rw [replaceChild]
  split
  · next hempty =>
    simp only [child, FImmutableTree.getChild?, children, Sorted.get_erase h, hcmp]
    split
    · rw [eq_empty hempty]
      rfl
    · rfl
  · exact child_insert h k'

theorem good_insert (h : Good (node v cs)) (hc : Good c) (hne : c.isEmpty = false) :
    Good (node v (Sorted.insert stringComparator k c cs)) := by
  cases h with
  | node _ _ hasc hgood hnonempty =>
    refine .node v _ (hasc.insert k c) (fun x hx => ?_) fun x hx => ?_
    · rcases Sorted.mem_insert hx with rfl | hx
      · exact hc
      · exact hgood x hx
    · rcases Sorted.mem_insert hx with rfl | hx
      · exact hne
      · exact hnonempty x hx

theorem good_replaceChild (h : Good (node v cs)) (hc : Good c) :
    Good (node v (replaceChild cs k c)) := by
  rw [replaceChild]
  split
  · cases h with
    | node _ _ hasc hgood hnonempty =>
      exact .node v _ (hasc.erase k) (fun x hx => hgood x (Sorted.mem_of_mem_erase hx))
        fun x hx => hnonempty x (Sorted.mem_of_mem_erase hx)
  · next hne => exact good_insert h hc (by simpa using hne)

end Replace

/-! ## Operations keep trees good -/

theorem isEmpty_setValue (v : α) (t : FImmutableTree κ α) (p : FPath κ) :
    (t.setValue v p).isEmpty = false := by
  cases p with
  | nil => rfl
  | cons k p =>
    simp [setValue, isEmpty, value, children, Sorted.insert_ne_nil]

theorem good_setValue {t : FImmutableTree κ α} (h : Good t) (v : α) (p : FPath κ) :
    Good (t.setValue v p) := by
  induction p generalizing t with
  | nil =>
    cases h with
    | node value children hasc hgood hne => exact .node (some v) children hasc hgood hne
  | cons k p ih =>
    cases t with
    | node value cs => exact good_insert h (ih (h.child k)) (isEmpty_setValue v _ p)

theorem good_setTree {t s : FImmutableTree κ α} (h : Good t) (hs : Good s) (p : FPath κ) :
    Good (t.setTree s p) := by
  induction p generalizing t with
  | nil => exact hs
  | cons k p ih =>
    cases t with
    | node value cs => exact good_replaceChild h (ih (h.child k))

theorem good_subtreeAtPath {t : FImmutableTree κ α} (h : Good t) (p : FPath κ) :
    Good (t.subtreeAtPath p) := by
  induction p generalizing t with
  | nil => exact h
  | cons k p ih =>
    rw [subtreeAtPath]
    cases hget : t.getChild? k with
    | none => exact good_empty
    | some c => exact ih (h.getChild? hget).1

/-! ## The value at every place -/

theorem valueAtPath_empty (p : FPath κ) : valueAtPath (empty : FImmutableTree κ α) p = none := by
  cases p <;> rfl

theorem valueAtPath_cons (t : FImmutableTree κ α) (k : κ) (p : FPath κ) :
    t.valueAtPath (k :: p) = (t.child k).valueAtPath p := by
  rw [valueAtPath, child]
  cases t.getChild? k with
  | none => exact (valueAtPath_empty p).symm
  | some c => rfl

theorem valueAtPath_append (t : FImmutableTree κ α) (p q : FPath κ) :
    t.valueAtPath (p ++ q) = (t.subtreeAtPath p).valueAtPath q := by
  induction p generalizing t with
  | nil => rfl
  | cons k p ih =>
    rw [List.cons_append, valueAtPath, subtreeAtPath]
    cases t.getChild? k with
    | none => exact (valueAtPath_empty q).symm
    | some c => exact ih c

theorem findRootMost_eq (t : FImmutableTree κ α) (p : FPath κ) :
    t.findRootMostValueAndPath p = Storage.PathWrites.rootMost t.valueAtPath p := by
  induction p generalizing t with
  | nil =>
    unfold findRootMostValueAndPath Storage.PathWrites.rootMost
    cases hv : t.value <;> simp [valueAtPath, hv]
  | cons k p ih =>
    unfold findRootMostValueAndPath Storage.PathWrites.rootMost
    cases hv : t.value with
    | some v => simp [valueAtPath, hv]
    | none =>
      simp only [List.inits_cons, List.findSome?_cons, valueAtPath, hv, Option.map_none,
        List.findSome?_map, Function.comp_def]
      cases hget : t.getChild? k with
      | none => exact (List.findSome?_eq_none_iff.mpr fun _ _ => rfl).symm
      | some c =>
        dsimp only
        rw [ih c, Storage.PathWrites.rootMost, List.map_findSome?]
        simp [Function.comp_def]

section Values

variable [DecidableEq κ]

theorem valueAtPath_setValue {t : FImmutableTree κ α} (h : Good t) (v : α) (p q : FPath κ) :
    (t.setValue v p).valueAtPath q = if q = p then some v else t.valueAtPath q := by
  induction p generalizing t q with
  | nil =>
    cases q with
    | nil => rfl
    | cons k q => simp [setValue, valueAtPath, getChild?, children]
  | cons k p ih =>
    cases q with
    | nil => simp [setValue, valueAtPath, value]
    | cons k' q =>
      cases t with
      | node tv cs =>
        have hasc : Sorted.Ascending stringComparator cs := h.ascending
        rw [valueAtPath_cons, valueAtPath_cons, setValue]
        simp only [value, children]
        rw [child_insert hasc]
        split
        · next heq =>
          subst heq
          simpa using ih (h.child k') q
        · next hne => simp [hne]

theorem valueAtPath_setTree {t : FImmutableTree κ α} (h : Good t) (s : FImmutableTree κ α)
    (p q : FPath κ) : (t.setTree s p).valueAtPath q =
      if p <+: q then s.valueAtPath (q.drop p.length) else t.valueAtPath q := by
  induction p generalizing t q with
  | nil => simp [setTree]
  | cons k p ih =>
    cases q with
    | nil => simp [setTree, valueAtPath, value]
    | cons k' q =>
      cases t with
      | node tv cs =>
        have hasc : Sorted.Ascending stringComparator cs := h.ascending
        rw [valueAtPath_cons, valueAtPath_cons, setTree]
        simp only [value, children]
        rw [child_replaceChild hasc]
        split
        · next heq =>
          subst heq
          simpa [List.cons_prefix_cons] using ih (h.child k') q
        · next hne => simp [List.cons_prefix_cons, Ne.symm hne]

end Values

/-! ## A tree is its values -/

theorem exists_valueAtPath {t : FImmutableTree κ α} (h : Good t) (hne : t.isEmpty = false) :
    ∃ p v, t.valueAtPath p = some v := by
  induction h with
  | node value cs hasc hgood hnonempty ih =>
    cases value with
    | some v => exact ⟨[], v, rfl⟩
    | none =>
      cases cs with
      | nil => simp [isEmpty, FImmutableTree.value, children] at hne
      | cons e cs =>
        obtain ⟨p, v, hv⟩ := ih e List.mem_cons_self (hnonempty e List.mem_cons_self)
        refine ⟨e.1 :: p, v, ?_⟩
        have hget : getChild? (node none (e :: cs)) e.1 = some e.2 :=
          (Sorted.get_eq_some_iff hasc).mpr List.mem_cons_self
        rw [valueAtPath, hget]
        exact hv

theorem getChild?_eq_some_iff {t c : FImmutableTree κ α} (h : Good t) {k : κ} :
    t.getChild? k = some c ↔ t.child k = c ∧ c.isEmpty = false := by
  constructor
  · intro hget
    exact ⟨by rw [child, hget, Option.getD_some], (h.getChild? hget).2⟩
  · rintro ⟨hchild, hne⟩
    rw [child] at hchild
    cases hget : t.getChild? k with
    | some c' => rw [← hchild, hget, Option.getD_some]
    | none =>
      rw [hget, Option.getD_none] at hchild
      rw [← hchild] at hne
      cases hne

/-- Trees with the same values are the same. -/
theorem eq_of_valueAtPath {t t' : FImmutableTree κ α} (h : Good t) (h' : Good t')
    (heq : ∀ p, t.valueAtPath p = t'.valueAtPath p) : t = t' := by
  induction h generalizing t' with
  | node value cs hasc hgood hnonempty ih =>
    cases t' with
    | node value' cs' =>
      have hgood' : Good (node value cs) := .node value cs hasc hgood hnonempty
      have hasc' : Sorted.Ascending stringComparator cs' := h'.ascending
      have hvalue : value = value' := heq []
      have hchild : ∀ k, child (node value cs) k = child (node value' cs') k := by
        intro k
        have hsame : ∀ p, (child (node value cs) k).valueAtPath p =
            (child (node value' cs') k).valueAtPath p := by
          intro p
          rw [← valueAtPath_cons, ← valueAtPath_cons, heq]
        cases hget : getChild? (node value cs) k with
        | some c =>
          have hc := ((getChild?_eq_some_iff hgood').mp hget).1
          rw [hc] at hsame ⊢
          exact ih (k, c) ((Sorted.get_eq_some_iff hasc).mp hget) (h'.child k) hsame
        | none =>
          -- an empty child has no value, so the other one is empty too
          have hc : child (node value cs) k = empty := by rw [child, hget, Option.getD_none]
          rw [hc] at hsame ⊢
          by_contra hne
          have hnotempty : (child (node value' cs') k).isEmpty = false := by
            by_contra hempty
            exact hne (eq_empty (by simpa using hempty)).symm
          obtain ⟨p, v, hv⟩ := exists_valueAtPath (h'.child k) hnotempty
          rw [← hsame p, valueAtPath_empty] at hv
          cases hv
      rw [hvalue]
      congr 1
      refine Sorted.Ascending.ext hasc hasc' fun k => ?_
      have hget : getChild? (node value cs) k = getChild? (node value' cs') k := by
        ext c
        rw [getChild?_eq_some_iff hgood', getChild?_eq_some_iff h', hchild]
      exact hget

/-! ## Every value is visited -/

omit [FKey κ] in
theorem forEachChildPathSoFar_eq {cs : List (κ × FImmutableTree κ α)} {q : FPath κ}
    (h : ∀ x ∈ cs, ∀ q, x.2.forEachPathSoFar q = x.2.forEach.map fun e => (q ++ e.1, e.2)) :
    forEachChildPathSoFar cs q =
      cs.flatMap fun x => x.2.forEach.map fun e => (q ++ x.1 :: e.1, e.2) := by
  induction cs with
  | nil => rfl
  | cons x cs ih =>
    rw [forEachChildPathSoFar, h x List.mem_cons_self, List.flatMap_cons,
      ih fun y hy => h y (List.mem_cons_of_mem x hy)]
    simp

/-- The path so far is put in front of every place. -/
theorem forEachPathSoFar_eq {t : FImmutableTree κ α} (h : Good t) (q : FPath κ) :
    t.forEachPathSoFar q = t.forEach.map fun e => (q ++ e.1, e.2) := by
  induction h generalizing q with
  | node value cs hasc hgood hnonempty ih =>
    rw [forEach, forEachPathSoFar, forEachPathSoFar, forEachChildPathSoFar_eq ih,
      forEachChildPathSoFar_eq ih]
    simp [List.map_flatMap, Function.comp_def]

theorem forEach_node {value : Option α} {cs : List (κ × FImmutableTree κ α)}
    (h : Good (node value cs)) : forEach (node value cs) =
      (cs.flatMap fun x => x.2.forEach.map fun e => (x.1 :: e.1, e.2)) ++
        value.toList.map fun v => ([], v) := by
  cases h with
  | node _ _ hasc hgood hnonempty =>
    rw [forEach, forEachPathSoFar,
      forEachChildPathSoFar_eq fun x hx q => forEachPathSoFar_eq (hgood x hx) q]
    simp

theorem mem_forEach {t : FImmutableTree κ α} (h : Good t) {p : FPath κ} {v : α} :
    (p, v) ∈ t.forEach ↔ t.valueAtPath p = some v := by
  induction h generalizing p with
  | node value cs hasc hgood hnonempty ih =>
    rw [forEach_node (.node value cs hasc hgood hnonempty), List.mem_append]
    cases p with
    | nil => simp [valueAtPath, FImmutableTree.value, eq_comm]
    | cons k p =>
      have hchild : (k :: p, v) ∈ (cs.flatMap fun x => x.2.forEach.map fun e => (x.1 :: e.1, e.2)) ↔
          ∃ c, (k, c) ∈ cs ∧ (p, v) ∈ c.forEach := by
        simp only [List.mem_flatMap, List.mem_map]
        constructor
        · rintro ⟨x, hx, e, he, heq⟩
          cases heq
          exact ⟨x.2, hx, he⟩
        · rintro ⟨c, hc, he⟩
          exact ⟨(k, c), hc, (p, v), he, rfl⟩
      rw [hchild, valueAtPath]
      constructor
      · rintro (⟨c, hc, he⟩ | hroot)
        · have hget : getChild? (node value cs) k = some c := (Sorted.get_eq_some_iff hasc).mpr hc
          rw [hget]
          exact (ih (k, c) hc).mp he
        · simp at hroot
      · intro hv
        cases hget : getChild? (node value cs) k with
        | none => rw [hget] at hv; cases hv
        | some c =>
          have hc := (Sorted.get_eq_some_iff hasc).mp hget
          rw [hget] at hv
          exact .inl ⟨c, hc, (ih (k, c) hc).mpr hv⟩

end FImmutableTree

end BetweenUS.FirebaseDatabase
