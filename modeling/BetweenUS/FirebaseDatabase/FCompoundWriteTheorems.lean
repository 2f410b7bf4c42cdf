/-
BetweenUS.FirebaseDatabase.FCompoundWriteTheorems — a compound write is an
overlay of nodes.

The operations keep `Valid`, and on the places of the tree they are those
of `Storage.PathWrites`. `applyToNode_eq`: applied to a node, the writes
are made one after the other. `getChild_applyToNode_eq`: applied to a
whole node and read at a place, or read at the place and applied there,
the result is the same.

The places are plain paths: a compound write that reaches `.priority` is
modelled, and not covered here.
-/
import BetweenUS.FirebaseDatabase.FCompoundWrite
import BetweenUS.FirebaseDatabase.FImmutableTreeTheorems
import BetweenUS.FirebaseDatabase.FNodeTheorems

namespace BetweenUS.FirebaseDatabase

open FKey (stringComparator dotPriority)
open Storage
open FNode (WF Plain getChild updateChild)
open FImmutableTree (good_initWithValue good_setValue good_setTree good_empty valueAtPath_empty)

variable {κ ν : Type} [FKey κ] [DecidableEq κ]

omit [DecidableEq κ] in
theorem plain_append {p q : FPath κ} : Plain (p ++ q) ↔ Plain p ∧ Plain q := by
  simp [Plain]

/-- Nodes are read and written along plain paths. -/
theorem places_node :
    PathWrites.Places (getChild : FNode κ ν → FPath κ → FNode κ ν) updateChild WF Plain where
  fine_append _ _ h := plain_append.mp h
  ok_get _ _ hv hp := FNode.wf_getChild hv hp
  ok_update _ _ _ hv hn hp := FNode.wf_updateChild hv hn hp
  get_nil := FNode.getChild_nil
  get_append v _ _ h := FNode.getChild_append h v
  update_nil := FNode.updateChild_nil
  get_above _ _ _ _ hv hn h := FNode.getChild_updateChild_above hv hn h
  get_below _ _ _ _ hv hn h := FNode.getChild_updateChild_below hv hn h
  get_beside _ _ _ _ hv hn hp hq := FNode.getChild_updateChild_beside hv hn hp hq

namespace FCompoundWrite

/-- The node that was written at each place. -/
abbrev nodes (w : FCompoundWrite κ ν) : PathWrites.Overlay κ (FNode κ ν) :=
  w.writeTree.valueAtPath

/-- No node lies below another; the nodes are well formed and at plain
places. -/
structure Valid (w : FCompoundWrite κ ν) : Prop where
  good : w.writeTree.Good
  antichain : PathWrites.Antichain w.nodes
  wf : ∀ p n, w.nodes p = some n → WF n
  plain : ∀ p n, w.nodes p = some n → Plain p

/-- A write that keeps a compound write valid. -/
structure ValidWrite (e : FPath κ × FNode κ ν) : Prop where
  plain : Plain e.1
  wf : WF e.2

omit [DecidableEq κ] in
theorem ext_nodes {w w' : FCompoundWrite κ ν} (h : w.writeTree.Good) (h' : w'.writeTree.Good)
    (heq : w.nodes = w'.nodes) : w = w' := by
  cases w
  cases w'
  congr 1
  exact FImmutableTree.eq_of_valueAtPath h h' fun p => congrFun heq p

omit [DecidableEq κ] in
theorem nodes_initWithValue (n : FNode κ ν) (p : FPath κ) :
    nodes ⟨.initWithValue (some n)⟩ p = if p = [] then some n else none := by
  cases p <;> rfl

omit [DecidableEq κ] in
theorem nodes_emptyWrite : nodes (emptyWrite : FCompoundWrite κ ν) = fun _ => none :=
  funext valueAtPath_empty

omit [DecidableEq κ] in
theorem valid_emptyWrite : Valid (emptyWrite : FCompoundWrite κ ν) where
  good := good_initWithValue none
  antichain := by simp [PathWrites.Antichain, nodes_emptyWrite]
  wf := by simp [nodes_emptyWrite]
  plain := by simp [nodes_emptyWrite]

/-! ## Writing and removing -/

section Operations

variable {w : FCompoundWrite κ ν} {n : FNode κ ν} {p : FPath κ}

theorem good_addWrite (h : w.writeTree.Good) (n : FNode κ ν) (p : FPath κ) :
    (w.addWrite n p).writeTree.Good := by
  rw [addWrite]
  split
  · exact good_initWithValue _
  · split
    · exact good_setValue h _ _
    · exact good_setTree h (good_initWithValue _) _

theorem nodes_addWrite (h : Valid w) (n : FNode κ ν) (p : FPath κ) :
    (w.addWrite n p).nodes = PathWrites.add updateChild w.nodes p n := by
  funext q
  rw [addWrite]
  split
  · next hp =>
    rw [nodes_initWithValue, hp, h.antichain.add_nil FNode.updateChild_nil]
  · rw [FImmutableTree.findRootMost_eq]
    cases hroot : PathWrites.rootMost w.nodes p with
    | some rv =>
      obtain ⟨hr, -⟩ := PathWrites.rootMost_spec hroot
      rw [PathWrites.add_of_rootMost hroot]
      dsimp only
      rw [FPath.relativePathFrom_of_prefix hr, Option.getD_some]
      exact FImmutableTree.valueAtPath_setValue h.good _ _ q
    | none =>
      rw [PathWrites.add_of_none hroot]
      refine (FImmutableTree.valueAtPath_setTree h.good _ p q).trans ?_
      split
      · next hpq =>
        obtain ⟨t, rfl⟩ := hpq
        rw [List.drop_left]
        simpa using nodes_initWithValue n t
      · rfl

theorem Valid.addWrite (h : Valid w) (hn : WF n) (hp : Plain p) : Valid (w.addWrite n p) where
  good := good_addWrite h.good n p
  antichain := by
    rw [nodes_addWrite h]
    exact h.antichain.add p n
  wf q m hm := by
    rw [nodes_addWrite h] at hm
    exact places_node.ok_add h.wf hp hn q m hm
  plain q m hm := by
    rw [nodes_addWrite h] at hm
    rcases PathWrites.eq_or_of_add hm with rfl | hsome
    · exact hp
    · obtain ⟨m', hm'⟩ := Option.isSome_iff_exists.mp hsome
      exact h.plain q m' hm'

/-- A list of writes, laid one after the other. -/
def addWrites (w : FCompoundWrite κ ν) (ws : List (FPath κ × FNode κ ν)) : FCompoundWrite κ ν :=
  ws.foldl (fun newWrite e => newWrite.addWrite e.2 e.1) w

theorem addWrites_append (w : FCompoundWrite κ ν) (ws us : List (FPath κ × FNode κ ν)) :
    w.addWrites (ws ++ us) = (w.addWrites ws).addWrites us := by
  simp [addWrites, List.foldl_append]

theorem Valid.addWrites (h : Valid w) {ws : List (FPath κ × FNode κ ν)}
    (hws : ∀ e ∈ ws, ValidWrite e) : Valid (w.addWrites ws) := by
  induction ws generalizing w with
  | nil => exact h
  | cons e ws ih =>
    have he := hws e List.mem_cons_self
    exact ih (h.addWrite he.wf he.plain) fun e' he' => hws e' (List.mem_cons_of_mem e he')

theorem nodes_addWrites (h : Valid w) {ws : List (FPath κ × FNode κ ν)}
    (hws : ∀ e ∈ ws, ValidWrite e) :
    (w.addWrites ws).nodes = PathWrites.layer updateChild w.nodes ws := by
  induction ws generalizing w with
  | nil => rfl
  | cons e ws ih =>
    have he := hws e List.mem_cons_self
    rw [PathWrites.layer_cons, ← nodes_addWrite h]
    exact ih (h.addWrite he.wf he.plain) fun e' he' => hws e' (List.mem_cons_of_mem e he')

theorem addCompoundWrite_eq (w c : FCompoundWrite κ ν) (p : FPath κ) :
    w.addCompoundWrite c p = w.addWrites (c.enumerateWrites.map fun e => (p ++ e.1, e.2)) := by
  simp [addCompoundWrite, addWrites, List.foldl_map]

theorem nodes_removeWriteAtPath (h : w.writeTree.Good) (p : FPath κ) :
    (w.removeWriteAtPath p).nodes = PathWrites.erase w.nodes p := by
  funext q
  rw [removeWriteAtPath]
  split
  · next hp => simp [nodes_emptyWrite, PathWrites.erase, hp]
  · refine (FImmutableTree.valueAtPath_setTree h _ p q).trans ?_
    rw [PathWrites.erase, valueAtPath_empty]

omit [DecidableEq κ] in
theorem good_removeWriteAtPath (h : w.writeTree.Good) (p : FPath κ) :
    (w.removeWriteAtPath p).writeTree.Good := by
  rw [removeWriteAtPath]
  split
  · exact good_initWithValue none
  · exact good_setTree h good_empty p

theorem Valid.removeWriteAtPath (h : Valid w) (p : FPath κ) : Valid (w.removeWriteAtPath p) := by
  have hnodes : ∀ q m, (w.removeWriteAtPath p).nodes q = some m → w.nodes q = some m := by
    intro q m hm
    rw [nodes_removeWriteAtPath h.good, PathWrites.erase] at hm
    split at hm
    · cases hm
    · exact hm
  exact { good := good_removeWriteAtPath h.good p
          antichain := fun q q' m m' hq hq' =>
            h.antichain q q' m m' (hnodes q m hq) (hnodes q' m' hq')
          wf := fun q m hm => h.wf q m (hnodes q m hm)
          plain := fun q m hm => h.plain q m (hnodes q m hm) }

/-! ## Reading -/

theorem completeNodeAtPath_eq (w : FCompoundWrite κ ν) (p : FPath κ) :
    w.completeNodeAtPath p =
      (PathWrites.rootMost w.nodes p).map fun rn => rn.2.getChild (p.drop rn.1.length) := by
  rw [completeNodeAtPath, FImmutableTree.findRootMost_eq]
  cases hroot : PathWrites.rootMost w.nodes p with
  | none => rfl
  | some rn =>
    dsimp only
    rw [FPath.relativePathFrom_of_prefix (PathWrites.rootMost_spec hroot).1]
    rfl

theorem completeNodeAtPath_nil (w : FCompoundWrite κ ν) :
    w.completeNodeAtPath [] = w.rootWrite := by
  rw [completeNodeAtPath, rootWrite]
  unfold FImmutableTree.findRootMostValueAndPath
  cases w.writeTree.value with
  | none => rfl
  | some n => exact congrArg some (FNode.getChild_nil n)

theorem nodes_childCompoundWriteAtPath (h : Valid w) (p : FPath κ) :
    (w.childCompoundWriteAtPath p).nodes = PathWrites.below getChild w.nodes p := by
  funext q
  rw [childCompoundWriteAtPath]
  split
  · next hp =>
    subst hp
    cases hroot : PathWrites.rootMost w.nodes [] with
    | none => rw [PathWrites.below_of_none hroot, List.nil_append]
    | some rn =>
      obtain ⟨hr, hn⟩ := PathWrites.rootMost_spec hroot
      rw [List.prefix_nil.mp hr] at hn
      rw [PathWrites.below_of_rootMost hroot, List.drop_nil, FNode.getChild_nil]
      split
      · next hq => rw [hq, hn]
      · next hq =>
        cases hm : w.nodes q with
        | none => rfl
        | some m => exact (hq (h.antichain _ _ _ _ hn hm List.nil_prefix).symm).elim
  · rw [completeNodeAtPath_eq]
    cases hroot : PathWrites.rootMost w.nodes p with
    | none =>
      rw [PathWrites.below_of_none hroot]
      exact (FImmutableTree.valueAtPath_append w.writeTree p q).symm
    | some rn =>
      rw [PathWrites.below_of_rootMost hroot]
      exact nodes_initWithValue _ q

theorem Valid.childCompoundWriteAtPath (h : Valid w) (hp : Plain p) :
    Valid (w.childCompoundWriteAtPath p) := by
  have hgood : (w.childCompoundWriteAtPath p).writeTree.Good := by
    rw [FCompoundWrite.childCompoundWriteAtPath]
    split
    · exact h.good
    · split
      · exact good_initWithValue _
      · exact FImmutableTree.good_subtreeAtPath h.good p
  have hnode : ∀ q m, (w.childCompoundWriteAtPath p).nodes q = some m → WF m ∧ Plain q := by
    intro q m hm
    rw [nodes_childCompoundWriteAtPath h] at hm
    cases hroot : PathWrites.rootMost w.nodes p with
    | none =>
      rw [PathWrites.below_of_none hroot] at hm
      exact ⟨h.wf _ m hm, (plain_append.mp (h.plain _ m hm)).2⟩
    | some rn =>
      obtain ⟨⟨t, ht⟩, hn⟩ := PathWrites.rootMost_spec hroot
      rw [PathWrites.below_of_rootMost hroot] at hm
      split at hm
      · next hq =>
        cases hm
        have hplain : Plain (p.drop rn.1.length) := by
          rw [← ht, List.drop_left]
          exact (plain_append.mp (ht ▸ hp)).2
        exact ⟨FNode.wf_getChild (h.wf _ _ hn) hplain, by simp [hq, Plain]⟩
      · cases hm
  exact { good := hgood
          antichain := by
            rw [nodes_childCompoundWriteAtPath h]
            exact h.antichain.below p
          wf := fun q m hm => (hnode q m hm).1
          plain := fun q m hm => (hnode q m hm).2 }

end Operations

/-! ## Applying -/

section Apply

variable {value : Option (FNode κ ν)} {cs : List (κ × FImmutableTree κ (FNode κ ν))}

omit [DecidableEq κ] in
/-- A node has nothing below it. -/
theorem Valid.children_eq_nil {n : FNode κ ν} (h : Valid ⟨.node (some n) cs⟩) : cs = [] := by
  cases hcs : cs with
  | nil => rfl
  | cons e ds =>
    subst hcs
    have hgood := h.good
    cases hgood with
    | node _ _ hasc hchild hnonempty =>
      obtain ⟨p, m, hm⟩ := FImmutableTree.exists_valueAtPath (hchild e List.mem_cons_self)
        (hnonempty e List.mem_cons_self)
      have hget : FImmutableTree.getChild? (.node (some n) (e :: ds)) e.1 = some e.2 :=
        (Sorted.get_eq_some_iff hasc).mpr List.mem_cons_self
      have hnode : nodes ⟨.node (some n) (e :: ds)⟩ (e.1 :: p) = some m := by
        rw [nodes, FImmutableTree.valueAtPath, hget]
        exact hm
      have heq := h.antichain [] (e.1 :: p) n m rfl hnode List.nil_prefix
      cases heq

omit [DecidableEq κ] in
/-- The writes under a child are those of the tree, seen from it. -/
theorem Valid.child (h : Valid ⟨.node value cs⟩) {x : κ × FImmutableTree κ (FNode κ ν)}
    (hx : x ∈ cs) : Valid ⟨x.2⟩ ∧ x.1 ≠ dotPriority := by
  have hgood := h.good
  cases hgood with
  | node _ _ hasc hchild hnonempty =>
    have hget : FImmutableTree.getChild? (.node value cs) x.1 = some x.2 :=
      (Sorted.get_eq_some_iff hasc).mpr hx
    have hnodes : ∀ p, nodes ⟨.node value cs⟩ (x.1 :: p) = nodes ⟨x.2⟩ p := by
      intro p
      rw [nodes, FImmutableTree.valueAtPath, hget]
    refine ⟨{ good := hchild x hx
              antichain := ?_
              wf := fun p n hn => h.wf (x.1 :: p) n ((hnodes p).trans hn)
              plain := fun p n hn => (h.plain (x.1 :: p) n ((hnodes p).trans hn)).rest }, ?_⟩
    · intro p q n m hp hq hle
      have heq := h.antichain _ _ n m ((hnodes p).trans hp) ((hnodes q).trans hq)
        (List.cons_prefix_cons.mpr ⟨rfl, hle⟩)
      exact (List.cons.inj heq).2
    · obtain ⟨p, n, hn⟩ := FImmutableTree.exists_valueAtPath (hchild x hx) (hnonempty x hx)
      exact (h.plain (x.1 :: p) n ((hnodes p).trans hn)).front

theorem applyChildWrites_eq {q : FPath κ} (h : ∀ x ∈ cs, x.1 ≠ dotPriority ∧
      ∀ q n, applySubtreeWrite x.2 q n = PathWrites.apply updateChild n (x.2.forEachPathSoFar q))
    (n : FNode κ ν) : applyChildWrites cs q (n, none) =
      (PathWrites.apply updateChild n (FImmutableTree.forEachChildPathSoFar cs q), none) := by
  induction cs generalizing n with
  | nil => rfl
  | cons x cs ih =>
    obtain ⟨k, c⟩ := x
    obtain ⟨hk, hc⟩ := h (k, c) List.mem_cons_self
    rw [applyChildWrites, if_neg hk, hc, ih fun y hy => h y (List.mem_cons_of_mem _ hy),
      FImmutableTree.forEachChildPathSoFar, PathWrites.apply_append]

theorem applySubtreeWrite_eq {t : FImmutableTree κ (FNode κ ν)} (h : Valid ⟨t⟩) (q : FPath κ)
    (n : FNode κ ν) :
    applySubtreeWrite t q n = PathWrites.apply updateChild n (t.forEachPathSoFar q) := by
  have hgood := h.good
  dsimp only at hgood
  induction hgood generalizing q n with
  | node value cs hasc hgood hnonempty ih =>
    cases value with
    | some m =>
      rw [h.children_eq_nil, applySubtreeWrite]
      rfl
    | none =>
      have hchildren : ∀ x ∈ cs, x.1 ≠ dotPriority ∧ ∀ q n, applySubtreeWrite x.2 q n =
          PathWrites.apply updateChild n (x.2.forEachPathSoFar q) := by
        intro x hx
        obtain ⟨hvalid, hk⟩ := h.child hx
        exact ⟨hk, ih x hx hvalid⟩
      rw [applySubtreeWrite, applyChildWrites_eq hchildren, FImmutableTree.forEachPathSoFar]
      simp

/-- A compound write is applied write by write. -/
theorem applyToNode_eq {w : FCompoundWrite κ ν} (h : Valid w) (n : FNode κ ν) :
    w.applyToNode n = PathWrites.apply updateChild n w.enumerateWrites :=
  applySubtreeWrite_eq h [] n

/-- The empty path is no exception. -/
theorem childCompoundWriteAtPath_eq {w : FCompoundWrite κ ν} (h : Valid w) (p : FPath κ) :
    w.childCompoundWriteAtPath p =
      match w.completeNodeAtPath p with
      | some shadowingNode => ⟨.initWithValue (some shadowingNode)⟩
      | none => ⟨w.writeTree.subtreeAtPath p⟩ := by
  rw [childCompoundWriteAtPath]
  split
  · next hp =>
    obtain ⟨⟨value, cs⟩⟩ := w
    rw [hp, completeNodeAtPath_nil]
    cases value with
    | none => rfl
    | some n =>
      rw [h.children_eq_nil]
      rfl
  · rfl

theorem completeNodeAtPath_cons {c : FImmutableTree κ (FNode κ ν)} {k : κ}
    (hget : FImmutableTree.getChild? (.node none cs) k = some c) (p : FPath κ) :
    completeNodeAtPath ⟨.node none cs⟩ (k :: p) = completeNodeAtPath ⟨c⟩ p := by
  rw [completeNodeAtPath, completeNodeAtPath]
  conv_lhs => unfold FImmutableTree.findRootMostValueAndPath
  simp only [FImmutableTree.value, hget]
  cases c.findRootMostValueAndPath p with
  | none => rfl
  | some rn => simp [FPath.relativePathFrom]

theorem localise_cons (k : κ) (r : FPath κ) (x : κ) (e : FPath κ × FNode κ ν) :
    PathWrites.localise getChild (k :: r) (x :: e.1, e.2) =
      if x = k then PathWrites.localise getChild r e else none := by
  by_cases hx : x = k
  · simp [PathWrites.localise, List.cons_prefix_cons, hx]
  · simp [PathWrites.localise, List.cons_prefix_cons, hx, Ne.symm hx]

/-- The writes seen from a place, in the same order. -/
theorem enumerateWrites_child {w : FCompoundWrite κ ν} (h : Valid w) (r : FPath κ) :
    (w.childCompoundWriteAtPath r).enumerateWrites =
      w.enumerateWrites.filterMap (PathWrites.localise getChild r) := by
  induction r generalizing w with
  | nil =>
    have hid : PathWrites.localise getChild ([] : FPath κ) =
        (some : FPath κ × FNode κ ν → Option (FPath κ × FNode κ ν)) := by
      funext e
      simp [PathWrites.localise]
    rw [hid, List.filterMap_some, childCompoundWriteAtPath, if_pos rfl]
  | cons k r ih =>
    obtain ⟨⟨value, cs⟩⟩ := w
    rw [childCompoundWriteAtPath_eq h]
    cases value with
    | some n =>
      rw [h.children_eq_nil]
      rfl
    | none =>
      have hasc : Sorted.Ascending stringComparator cs := h.good.ascending
      have hkey : (enumerateWrites ⟨.node none cs⟩).filterMap
          (PathWrites.localise getChild (k :: r)) =
            (Sorted.get stringComparator cs k).elim []
              fun c => c.forEach.filterMap (PathWrites.localise getChild r) := by
        rw [enumerateWrites, FImmutableTree.forEach_node h.good, ← Sorted.flatMap_eq_get hasc]
        simp only [Option.toList_none, List.map_nil, List.append_nil, List.filterMap_flatMap,
          List.filterMap_map, Function.comp_def, localise_cons]
        congr 1
        funext x
        split <;> simp
      rw [hkey]
      cases hget : FImmutableTree.getChild? (.node none cs) k with
      | none =>
        have hnone : completeNodeAtPath ⟨.node none cs⟩ (k :: r) = none := by
          rw [completeNodeAtPath]
          conv_lhs => unfold FImmutableTree.findRootMostValueAndPath
          simp only [FImmutableTree.value, hget]
        rw [hnone, FImmutableTree.subtreeAtPath, hget, show Sorted.get stringComparator cs k = none
          from hget]
        rfl
      | some c =>
        have hc : Valid ⟨c⟩ := (h.child ((Sorted.get_eq_some_iff hasc).mp hget)).1
        rw [completeNodeAtPath_cons hget, FImmutableTree.subtreeAtPath, hget,
          show Sorted.get stringComparator cs k = some c from hget]
        have hrest := ih hc
        rw [childCompoundWriteAtPath_eq hc] at hrest
        exact hrest

/-- Writes can be applied at a place or above it. -/
theorem getChild_applyToNode_eq {w : FCompoundWrite κ ν} (h : Valid w) {n : FNode κ ν} (hn : WF n)
    {r : FPath κ} (hr : Plain r) :
    (w.applyToNode n).getChild r = (w.childCompoundWriteAtPath r).applyToNode (n.getChild r) := by
  have hwrites : ∀ e ∈ w.enumerateWrites, Plain e.1 ∧ WF e.2 := by
    intro e he
    have hnode : w.nodes e.1 = some e.2 := (FImmutableTree.mem_forEach h.good).mp he
    exact ⟨h.plain _ _ hnode, h.wf _ _ hnode⟩
  rw [applyToNode_eq h, applyToNode_eq (h.childCompoundWriteAtPath hr), enumerateWrites_child h,
    places_node.get_apply hn hr hwrites]

end Apply

end FCompoundWrite

end BetweenUS.FirebaseDatabase
