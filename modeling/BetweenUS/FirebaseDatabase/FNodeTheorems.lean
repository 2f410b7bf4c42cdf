/-
BetweenUS.FirebaseDatabase.FNodeTheorems — a path through a node reads
back what was written under it, and nothing else changes.

The laws are about plain paths, those that do not end in `.priority`: a
write that empties a node also drops its priority. They hold through
leaves too, although a write below a leaf drops its value.
-/
import BetweenUS.FirebaseDatabase.FNode

namespace BetweenUS.FirebaseDatabase

open FKey (keyComparator dotPriority)

namespace FNode

variable {κ ν : Type} [FKey κ] [DecidableEq κ]

/-- A path without the key `.priority`. -/
def Plain (p : FPath κ) : Prop := dotPriority ∉ p

omit [DecidableEq κ] in
theorem Plain.front {k : κ} {p : FPath κ} (h : Plain (k :: p)) : k ≠ dotPriority := by
  rintro rfl
  exact h List.mem_cons_self

omit [DecidableEq κ] in
theorem Plain.rest {k : κ} {p : FPath κ} (h : Plain (k :: p)) : Plain p :=
  fun hmem => h (List.mem_cons_of_mem k hmem)

omit [DecidableEq κ] in
theorem Plain.append {p q : FPath κ} (h : Plain (p ++ q)) : Plain p ∧ Plain q :=
  ⟨fun hmem => h (List.mem_append_left q hmem), fun hmem => h (List.mem_append_right p hmem)⟩

/-! ## One step -/

theorem getImmediateChild_leaf {k : κ} (h : k ≠ dotPriority) (value : ν) (priority : Option ν) :
    getImmediateChild (leaf value priority : FNode κ ν) k = emptyNode := by
  simp [getImmediateChild, h]

theorem getImmediateChild_ofChildren {k : κ} (h : k ≠ dotPriority) (priority : Option ν)
    (entries : List (κ × FNode κ ν)) :
    getImmediateChild (ofChildren priority entries) k =
      (Sorted.get keyComparator entries k).getD emptyNode := by
  cases entries with
  | nil => simp [ofChildren, emptyNode, getImmediateChild, h, Sorted.get]
  | cons e entries => simp [ofChildren, getImmediateChild, h]

omit [DecidableEq κ] in
theorem wf_ofChildren {priority : Option ν} {entries : List (κ × FNode κ ν)}
    (hasc : Sorted.Ascending keyComparator entries) (hwf : ∀ x ∈ entries, WF x.2)
    (hne : ∀ x ∈ entries, x.2.isEmpty = false) : WF (ofChildren priority entries) := by
  cases entries with
  | nil => exact .empty
  | cons e entries => exact .children priority e entries hasc hwf hne

omit [DecidableEq κ] in
theorem WF.entries {priority : Option ν} {entries : List (κ × FNode κ ν)}
    (h : WF (FNode.children priority entries)) :
    Sorted.Ascending keyComparator entries ∧ (∀ x ∈ entries, WF x.2) ∧
      ∀ x ∈ entries, x.2.isEmpty = false := by
  cases h with
  | empty => simp
  | children _ _ _ hasc hwf hne => exact ⟨hasc, hwf, hne⟩

theorem wf_getImmediateChild {n : FNode κ ν} (h : WF n) (k : κ) :
    WF (getImmediateChild n k) := by
  have hpriority : ∀ p : Option ν, WF (ofPriority p : FNode κ ν) := by
    intro p
    cases p with
    | none => exact .empty
    | some value => exact .leaf value none
  cases n with
  | leaf value priority =>
    rw [getImmediateChild]
    split
    · exact hpriority priority
    · exact .empty
  | children priority entries =>
    rw [getImmediateChild]
    split
    · exact hpriority priority
    · obtain ⟨hasc, hwf, -⟩ := h.entries
      cases hget : Sorted.get keyComparator entries k with
      | none => exact .empty
      | some child => exact hwf _ ((Sorted.get_eq_some_iff hasc).mp hget)

section Step

variable {n new : FNode κ ν} {k : κ}

theorem wf_updateImmediateChild (hn : WF n) (hnew : WF new) (hk : k ≠ dotPriority) :
    WF (updateImmediateChild n k new) := by
  cases n with
  | leaf value priority =>
    rw [updateImmediateChild, if_neg hk]
    split
    · exact hn
    · next hempty =>
      refine .children _ _ _ (by simp [Sorted.Ascending]) ?_ ?_
      · simpa using hnew
      · simpa using hempty
  | children priority entries =>
    obtain ⟨hasc, hwf, hne⟩ := hn.entries
    rw [updateImmediateChild, if_neg hk]
    split
    · exact wf_ofChildren (hasc.erase k) (fun x hx => hwf x (Sorted.mem_of_mem_erase hx))
        fun x hx => hne x (Sorted.mem_of_mem_erase hx)
    · next hempty =>
      refine wf_ofChildren (hasc.insert k new) (fun x hx => ?_) fun x hx => ?_
      · rcases Sorted.mem_insert hx with rfl | hx
        · exact hnew
        · exact hwf x hx
      · rcases Sorted.mem_insert hx with rfl | hx
        · simpa using hempty
        · exact hne x hx

/-- The child that was written, or any other child. -/
theorem getImmediateChild_update (hn : WF n) (hnew : WF new) (hk : k ≠ dotPriority) {k' : κ}
    (hk' : k' ≠ dotPriority) : getImmediateChild (updateImmediateChild n k new) k' =
      if k' = k then new else getImmediateChild n k' := by
  have hcmp : keyComparator k' k = .eq ↔ k' = k := Std.LawfulEqCmp.compare_eq_iff_eq
  cases n with
  | leaf value priority =>
    rw [updateImmediateChild, if_neg hk, getImmediateChild_leaf hk']
    split
    · next hempty =>
      rw [getImmediateChild_leaf hk', hnew.eq_emptyNode hempty, ite_self]
    · simp only [updatePriority, getImmediateChild, if_neg hk', Sorted.get]
      cases hc : keyComparator k' k <;> simp_all
  | children priority entries =>
    obtain ⟨hasc, -, -⟩ := hn.entries
    have hread : getImmediateChild (children priority entries) k' =
        (Sorted.get keyComparator entries k').getD emptyNode := by
      rw [getImmediateChild, if_neg hk']
    rw [updateImmediateChild, if_neg hk, hread]
    split
    · next hempty =>
      rw [getImmediateChild_ofChildren hk', Sorted.get_erase hasc]
      simp only [hcmp, hnew.eq_emptyNode hempty]
      split <;> rfl
    · rw [getImmediateChild_ofChildren hk', Sorted.get_insert hasc]
      simp only [hcmp]
      split <;> rfl

end Step

/-! ## Paths -/

theorem getChild_emptyNode {p : FPath κ} (h : Plain p) :
    getChild (emptyNode : FNode κ ν) p = emptyNode := by
  induction p with
  | nil => rfl
  | cons k p ih =>
    have hchild : getImmediateChild (emptyNode : FNode κ ν) k = emptyNode := by
      simp [emptyNode, getImmediateChild, h.front, Sorted.get]
    rw [emptyNode, getChild]
    rw [← emptyNode, hchild]
    exact ih h.rest

theorem getChild_cons {k : κ} {p : FPath κ} (h : Plain (k :: p)) (n : FNode κ ν) :
    n.getChild (k :: p) = (n.getImmediateChild k).getChild p := by
  cases n with
  | leaf value priority =>
    rw [getImmediateChild_leaf h.front, getChild_emptyNode h.rest, getChild, if_neg h.front]
  | children priority entries => rw [getChild]

theorem updateImmediateChild_leaf_empty {k : κ} (h : k ≠ dotPriority) (value : ν)
    (priority : Option ν) :
    updateImmediateChild (leaf value priority) k (emptyNode : FNode κ ν) = leaf value priority := by
  simp [updateImmediateChild, h]

theorem updateChild_emptyNode {p : FPath κ} (h : Plain p) :
    updateChild (emptyNode : FNode κ ν) p emptyNode = emptyNode := by
  induction p with
  | nil => rfl
  | cons k p ih =>
    have hchild : getImmediateChild (emptyNode : FNode κ ν) k = emptyNode := by
      simp [emptyNode, getImmediateChild, h.front, Sorted.get]
    rw [emptyNode, updateChild, ← emptyNode, hchild, ih h.rest]
    simp [emptyNode, updateImmediateChild, h.front, isEmpty, Sorted.erase, ofChildren]

/-- The two kinds of nodes are written in the same way, child by child. -/
theorem updateChild_cons {k : κ} {p : FPath κ} (h : Plain (k :: p)) (n : FNode κ ν)
    {new : FNode κ ν} (hnew : WF new) : n.updateChild (k :: p) new =
      n.updateImmediateChild k ((n.getImmediateChild k).updateChild p new) := by
  cases n with
  | leaf value priority =>
    rw [getImmediateChild_leaf h.front, updateChild]
    split
    · next hempty =>
      rw [hnew.eq_emptyNode hempty.1, updateChild_emptyNode h.rest,
        updateImmediateChild_leaf_empty h.front]
    · rfl
  | children priority entries => rw [updateChild]

theorem wf_getChild {n : FNode κ ν} (h : WF n) {p : FPath κ} (hp : Plain p) :
    WF (n.getChild p) := by
  induction p generalizing n with
  | nil => simpa using h
  | cons k p ih =>
    rw [getChild_cons hp]
    exact ih (wf_getImmediateChild h k) hp.rest

theorem wf_updateChild {n new : FNode κ ν} (h : WF n) (hnew : WF new) {p : FPath κ}
    (hp : Plain p) : WF (n.updateChild p new) := by
  induction p generalizing n with
  | nil => simpa using hnew
  | cons k p ih =>
    rw [updateChild_cons hp n hnew]
    exact wf_updateImmediateChild h (ih (wf_getImmediateChild h k) hp.rest) hp.front

theorem getChild_append {p q : FPath κ} (h : Plain (p ++ q)) (n : FNode κ ν) :
    n.getChild (p ++ q) = (n.getChild p).getChild q := by
  induction p generalizing n with
  | nil => simp
  | cons k p ih =>
    rw [List.cons_append] at h ⊢
    have hp : Plain (k :: p) := (Plain.append (p := k :: p) h).1
    rw [getChild_cons h, getChild_cons hp, ih h.rest]

/-! ## Reading after writing -/

section Laws

variable {n new : FNode κ ν}

/-- What was written is read back. -/
theorem getChild_updateChild_self (hn : WF n) (hnew : WF new) {p : FPath κ} (hp : Plain p) :
    (n.updateChild p new).getChild p = new := by
  induction p generalizing n with
  | nil => simp
  | cons k p ih =>
    have hchild := wf_getImmediateChild hn k
    rw [getChild_cons hp, updateChild_cons hp n hnew,
      getImmediateChild_update hn (wf_updateChild hchild hnew hp.rest) hp.front hp.front,
      if_pos rfl, ih hchild hp.rest]

/-- Above the written place, the same write is seen further down. -/
theorem getChild_updateChild_above (hn : WF n) (hnew : WF new) {p q : FPath κ}
    (hpq : Plain (p ++ q)) :
    (n.updateChild (p ++ q) new).getChild p = (n.getChild p).updateChild q new := by
  induction p generalizing n with
  | nil => simp
  | cons k p ih =>
    rw [List.cons_append] at hpq ⊢
    have hp : Plain (k :: p) := (Plain.append (p := k :: p) hpq).1
    have hchild := wf_getImmediateChild hn k
    rw [getChild_cons hp, updateChild_cons hpq n hnew,
      getImmediateChild_update hn (wf_updateChild hchild hnew hpq.rest) hp.front hp.front,
      if_pos rfl, ih hchild hpq.rest, getChild_cons hp]

/-- Below the written place, the new node is read. -/
theorem getChild_updateChild_below (hn : WF n) (hnew : WF new) {p q : FPath κ}
    (hpq : Plain (p ++ q)) : (n.updateChild p new).getChild (p ++ q) = new.getChild q := by
  rw [getChild_append hpq, getChild_updateChild_self hn hnew (Plain.append hpq).1]

/-- Beside the written place, nothing changes. -/
theorem getChild_updateChild_beside (hn : WF n) (hnew : WF new) {p q : FPath κ} (hp : Plain p)
    (hq : Plain q) (hpq : ¬ p <+: q) (hqp : ¬ q <+: p) :
    (n.updateChild p new).getChild q = n.getChild q := by
  induction p generalizing n q with
  | nil => exact (hpq List.nil_prefix).elim
  | cons k p ih =>
    cases q with
    | nil => exact (hqp List.nil_prefix).elim
    | cons k' q =>
      have hchild := wf_getImmediateChild hn k
      rw [getChild_cons hq, getChild_cons hq, updateChild_cons hp n hnew,
        getImmediateChild_update hn (wf_updateChild hchild hnew hp.rest) hp.front hq.front]
      split
      · next heq =>
        subst heq
        exact ih hchild hp.rest hq.rest (fun h => hpq (by simpa using h))
          (fun h => hqp (by simpa using h))
      · rfl

end Laws

end FNode

end BetweenUS.FirebaseDatabase
