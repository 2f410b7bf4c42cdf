/-
BetweenUS.FirebaseDatabase.FWriteTreeTheorems — the writes that are kept
laid over each other are the pending writes, and what is shown under them
depends on the pending writes only.

`Coherent`: the compound write that is kept up to date step by step is the
one that laying all pending writes again would give. Adding keeps it.
Removing keeps it where the removed write is `Unobstructed`
(`Coherent.removeWriteId`): every earlier write that touches its place was
made at the place or below, and so was every later write strictly inside.
The oldest of a list of overwrites always is (`unobstructed_of_oldest`).

`fast_eq_slow`: the value at a place, computed from the compound write, is
the one computed from the pending writes themselves.
-/
import BetweenUS.FirebaseDatabase.FWriteTree
import BetweenUS.FirebaseDatabase.FCompoundWriteTheorems

namespace BetweenUS.FirebaseDatabase

open Storage
open FNode (WF Plain getChild updateChild)
open FCompoundWrite (ValidWrite Valid emptyWrite valid_emptyWrite nodes_emptyWrite)

variable {κ ν : Type}

/-! ## The places of a record -/

theorem FWriteRecord.path_le {r : FWriteRecord κ ν} {e : FPath κ × FNode κ ν}
    (h : e ∈ r.writes) : r.path <+: e.1 := by
  unfold FWriteRecord.writes at h
  split at h
  · rw [List.mem_singleton.mp h]
  · obtain ⟨e', -, rfl⟩ := List.mem_map.mp h
    exact List.prefix_append r.path e'.1

namespace FWriteTree

variable [FKey κ] [DecidableEq κ]

omit [FKey κ] in
theorem recordContainsPath_iff {r : FWriteRecord κ ν} {p : FPath κ} :
    recordContainsPath r p = true ↔ ∃ e ∈ r.writes, e.1 <+: p := by
  unfold recordContainsPath FWriteRecord.writes
  cases r.write with
  | overwrite node => simp [FPath.contains_iff]
  | merge merge =>
    rw [List.any_eq_true]
    constructor
    · rintro ⟨e, he, hle⟩
      exact ⟨(r.path ++ e.1, e.2), List.mem_map_of_mem he, FPath.contains_iff.mp hle⟩
    · rintro ⟨x, hx, hle⟩
      obtain ⟨e, he, rfl⟩ := List.mem_map.mp hx
      exact ⟨e, he, FPath.contains_iff.mpr hle⟩

/-- The single writes of a list of records, oldest first. -/
def writesOf (records : List (FWriteRecord κ ν)) : List (FPath κ × FNode κ ν) :=
  records.flatMap FWriteRecord.writes

/-! ## Laying all writes -/

/-- A record beside the place does nothing there. -/
theorem filterMap_localise_beside {r : FWriteRecord κ ν} {p : FPath κ}
    (hrp : ¬ r.path <+: p) (hpr : ¬ p <+: r.path) :
    r.writes.filterMap (PathWrites.localise getChild p) = [] := by
  rw [List.filterMap_eq_nil_iff]
  intro e he
  have hle := FWriteRecord.path_le he
  apply PathWrites.localise_beside
  · exact fun h => hrp (hle.trans h)
  · exact fun h => (PathWrites.comparable h hle).elim hpr hrp

/-- Without a merge above the place, a record acts there by its writes. -/
theorem layerRecord_eq {r : FWriteRecord κ ν} {p : FPath κ}
    (hmerge : ∀ merge, r.write = .merge merge → r.path <+: p → p <+: r.path)
    (c : FCompoundWrite κ ν) :
    layerRecord p c r = c.addWrites (r.writes.filterMap (PathWrites.localise getChild p)) := by
  obtain ⟨writeId, path, write, visible⟩ := r
  rcases PathWrites.place_cases path p with ⟨q, rfl⟩ | ⟨q, hne, rfl⟩ | ⟨hrp, hpr⟩
  · -- at the place or below
    have hcontains : FPath.contains p (p ++ q) = true :=
      FPath.contains_iff.mpr (List.prefix_append p q)
    cases write with
    | overwrite n =>
      simp [layerRecord, hcontains, FPath.relativePathFrom_append, FWriteRecord.writes,
        FCompoundWrite.addWrites, PathWrites.localise_inside]
    | merge merge =>
      simp [layerRecord, hcontains, FPath.relativePathFrom_append, FWriteRecord.writes,
        FCompoundWrite.addCompoundWrite_eq, List.filterMap_map, List.append_assoc,
        PathWrites.localise_inside]
  · -- strictly above
    have hcontains : FPath.contains path (path ++ q) = true :=
      FPath.contains_iff.mpr (List.prefix_append path q)
    have hnot : ¬ path ++ q <+: path := by
      intro hle
      have heq := PathWrites.eq_of_prefixes hle (List.prefix_append path q)
      simp [hne] at heq
    have hnot' : ¬ FPath.contains (path ++ q) path = true := fun h =>
      hnot (FPath.contains_iff.mp h)
    cases write with
    | overwrite n =>
      simp [layerRecord, hcontains, hnot', FPath.relativePathFrom_append, FWriteRecord.writes,
        FCompoundWrite.addWrites, PathWrites.localise_above n hne]
    | merge merge => exact (hnot (hmerge merge rfl (List.prefix_append path q))).elim
  · -- beside
    have hrp' : ¬ FPath.contains path p = true := fun h => hrp (FPath.contains_iff.mp h)
    have hpr' : ¬ FPath.contains p path = true := fun h => hpr (FPath.contains_iff.mp h)
    rw [filterMap_localise_beside hrp hpr]
    cases write with
    | overwrite n => simp [layerRecord, hrp', hpr', FCompoundWrite.addWrites]
    | merge merge => simp [layerRecord, hrp', hpr', FCompoundWrite.addWrites]

/-- The same for a list, with a filter that drops only records beside the
place. -/
theorem layerTreeFromWrites_eq {records : List (FWriteRecord κ ν)}
    {filter : FWriteRecord κ ν → Bool} {p : FPath κ}
    (hmerge : ∀ r ∈ records, ∀ merge, r.write = .merge merge → r.path <+: p → p <+: r.path)
    (hfilter : ∀ r ∈ records, filter r = false → ¬ r.path <+: p ∧ ¬ p <+: r.path) :
    layerTreeFromWrites records filter p =
      emptyWrite.addWrites ((writesOf records).filterMap (PathWrites.localise getChild p)) := by
  unfold layerTreeFromWrites writesOf
  generalize emptyWrite = c
  induction records generalizing c with
  | nil => rfl
  | cons r records ih =>
    rw [List.foldl_cons, ih (fun x hx => hmerge x (List.mem_cons_of_mem r hx))
      (fun x hx => hfilter x (List.mem_cons_of_mem r hx)), List.flatMap_cons, List.filterMap_append,
      FCompoundWrite.addWrites_append]
    cases hpass : filter r with
    | true => rw [← layerRecord_eq (hmerge r List.mem_cons_self), if_pos rfl]
    | false =>
      obtain ⟨hrp, hpr⟩ := hfilter r List.mem_cons_self hpass
      rw [filterMap_localise_beside hrp hpr, if_neg Bool.false_ne_true]
      rfl

theorem layerTreeFromWrites_root (records : List (FWriteRecord κ ν)) :
    layerTreeFromWrites records defaultFilter [] = emptyWrite.addWrites (writesOf records) := by
  rw [layerTreeFromWrites_eq (fun _ _ _ _ _ => List.nil_prefix) fun _ _ h => by cases h]
  have hid : PathWrites.localise getChild ([] : FPath κ) =
      (some : FPath κ × FNode κ ν → Option (FPath κ × FNode κ ν)) := by
    funext e
    simp [PathWrites.localise]
  rw [hid, List.filterMap_some]

/-! ## The removal loop -/

section Loop

variable {w : FWriteRecord κ ν} {index : Nat}

/-- A later write covers the removed one. -/
def Shadows (w : FWriteRecord κ ν) (index : Nat) (x : FWriteRecord κ ν × Nat) : Prop :=
  x.1.visible = true ∧ index ≤ x.2 ∧ recordContainsPath x.1 w.path = true

omit [FKey κ] in
theorem removalLoop_of_shadowed {l : List (FWriteRecord κ ν × Nat)} (h : ∃ x ∈ l, Shadows w index x)
    (state : Bool × Bool) : (removalLoop w index l state).1 = false := by
  induction l generalizing state with
  | nil => simp at h
  | cons x l ih =>
    obtain ⟨r, i⟩ := x
    obtain ⟨visible, overlaps⟩ := state
    cases visible with
    | false => rfl
    | true =>
      rw [removalLoop, if_pos rfl]
      obtain ⟨y, hy, hshadow⟩ := h
      rcases List.mem_cons.mp hy with rfl | hy
      · obtain ⟨hvisible, hindex, hcontains⟩ := hshadow
        rw [if_pos hvisible, if_pos ⟨hindex, hcontains⟩]
        cases l <;> rfl
      · exact ih ⟨y, hy, hshadow⟩ _

omit [FKey κ] in
theorem removalLoop_of_not_shadowed {l : List (FWriteRecord κ ν × Nat)}
    (h : ∀ x ∈ l, ¬ Shadows w index x) (overlaps : Bool) :
    removalLoop w index l (true, overlaps) =
      (true, overlaps || l.any fun x => x.1.visible && FPath.contains w.path x.1.path) := by
  induction l generalizing overlaps with
  | nil => simp [removalLoop]
  | cons x l ih =>
    obtain ⟨r, i⟩ := x
    have hx := h (r, i) List.mem_cons_self
    have hl := ih fun y hy => h y (List.mem_cons_of_mem _ hy)
    rw [removalLoop, if_pos rfl]
    cases hvisible : r.visible with
    | false => simp [hvisible, hl]
    | true =>
      have hnot : ¬ (index ≤ i ∧ recordContainsPath r w.path = true) := fun hle =>
        hx ⟨hvisible, hle⟩
      rw [if_pos rfl, if_neg hnot]
      cases hcontains : FPath.contains w.path r.path with
      | true => simp [hl, hvisible, hcontains]
      | false => simp [hl, hvisible, hcontains]

end Loop

/-! ## Removing a write -/

/-- No write above the place of `w` has absorbed it, and every write inside
the place was made at the place or below. -/
structure Unobstructed (earlier : List (FWriteRecord κ ν)) (w : FWriteRecord κ ν)
    (later : List (FWriteRecord κ ν)) : Prop where
  earlier : ∀ r ∈ earlier, ∀ e ∈ r.writes, e.1 <+: w.path ∨ w.path <+: e.1 → w.path <+: r.path
  later : ∀ r ∈ later, ∀ e ∈ r.writes, w.path <+: e.1 → e.1 ≠ w.path → w.path <+: r.path

/-- What was kept up to date is what laying all pending writes again would
give. -/
structure Coherent (t : FWriteTree κ ν) : Prop where
  valid : ∀ r ∈ t.allWrites, ∀ e ∈ r.writes, ValidWrite e
  visible : ∀ r ∈ t.allWrites, r.visible = true
  layered : t.visibleWrites = layerTreeFromWrites t.allWrites defaultFilter []

omit [FKey κ] [DecidableEq κ] in
theorem mem_writesOf {records : List (FWriteRecord κ ν)} {e : FPath κ × FNode κ ν} :
    e ∈ writesOf records ↔ ∃ r ∈ records, e ∈ r.writes :=
  List.mem_flatMap

section Removal

variable {earlier later : List (FWriteRecord κ ν)} {w : FWriteRecord κ ν}

omit [FKey κ] [DecidableEq κ] in
theorem mem_of_mem_rest {r : FWriteRecord κ ν} (h : r ∈ earlier ++ later) :
    r ∈ earlier ++ w :: later := by
  rcases List.mem_append.mp h with h | h
  · exact List.mem_append_left _ h
  · exact List.mem_append_right _ (List.mem_cons_of_mem w h)

theorem nodes_foldl_removeWriteAtPath {c : FCompoundWrite κ ν} (h : Valid c)
    (places : List (FPath κ)) :
    Valid (places.foldl FCompoundWrite.removeWriteAtPath c) ∧
      (places.foldl FCompoundWrite.removeWriteAtPath c).nodes =
        places.foldl PathWrites.erase c.nodes := by
  induction places generalizing c with
  | nil => exact ⟨h, rfl⟩
  | cons p places ih =>
    have hrest := ih (h.removeWriteAtPath p)
    rw [FCompoundWrite.nodes_removeWriteAtPath h.good] at hrest
    exact hrest

/-- Nothing lies strictly above the place of an unobstructed write. -/
theorem Unobstructed.clear (h : Unobstructed earlier w later) :
    PathWrites.Clear w.path (PathWrites.layer updateChild (fun _ => none) (writesOf earlier)) := by
  apply PathWrites.Clear.layer
  · exact fun _ _ _ => rfl
  · intro e he hle
    obtain ⟨r, hr, he⟩ := mem_writesOf.mp he
    have hpath := h.earlier r hr e he (.inl hle)
    exact PathWrites.eq_of_prefixes hle (hpath.trans (FWriteRecord.path_le he))

section Layered

variable (hvalid : ∀ r ∈ earlier ++ w :: later, ∀ e ∈ r.writes, ValidWrite e)

include hvalid

theorem valid_layered :
    Valid (emptyWrite.addWrites (writesOf (earlier ++ w :: later))) ∧
      Valid (emptyWrite.addWrites (writesOf (earlier ++ later))) := by
  constructor
  · refine valid_emptyWrite.addWrites fun e he => ?_
    obtain ⟨r, hr, he⟩ := mem_writesOf.mp he
    exact hvalid r hr e he
  · refine valid_emptyWrite.addWrites fun e he => ?_
    obtain ⟨r, hr, he⟩ := mem_writesOf.mp he
    exact hvalid r (mem_of_mem_rest hr) e he

/-- The writes laid with and without `w`. -/
theorem nodes_layered :
    (emptyWrite.addWrites (writesOf (earlier ++ w :: later))).nodes =
      PathWrites.layer updateChild (PathWrites.layer updateChild
        (PathWrites.layer updateChild (fun _ => none) (writesOf earlier)) w.writes)
          (writesOf later) ∧
    (emptyWrite.addWrites (writesOf (earlier ++ later))).nodes =
      PathWrites.layer updateChild
        (PathWrites.layer updateChild (fun _ => none) (writesOf earlier)) (writesOf later) := by
  constructor
  · rw [FCompoundWrite.nodes_addWrites valid_emptyWrite, nodes_emptyWrite]
    · simp only [writesOf, List.flatMap_append, List.flatMap_cons, PathWrites.layer_append]
    · intro e he
      obtain ⟨r, hr, he⟩ := mem_writesOf.mp he
      exact hvalid r hr e he
  · rw [FCompoundWrite.nodes_addWrites valid_emptyWrite, nodes_emptyWrite]
    · simp only [writesOf, List.flatMap_append, PathWrites.layer_append]
    · intro e he
      obtain ⟨r, hr, he⟩ := mem_writesOf.mp he
      exact hvalid r (mem_of_mem_rest hr) e he

/-- A write that a later one covers is not seen. -/
theorem layered_of_shadowed (hfree : Unobstructed earlier w later)
    (hshadow : ∃ r ∈ later, recordContainsPath r w.path = true) :
    emptyWrite.addWrites (writesOf (earlier ++ w :: later)) =
      emptyWrite.addWrites (writesOf (earlier ++ later)) := by
  obtain ⟨hold, hnew⟩ := valid_layered hvalid
  obtain ⟨hnodes, hnodes'⟩ := nodes_layered hvalid
  refine FCompoundWrite.ext_nodes hold.good hnew.good ?_
  rw [hnodes, hnodes']
  refine PathWrites.layer_eq_of_shadowed FNode.updateChild_nil ?_ hfree.clear
    (fun e he => FWriteRecord.path_le he) ?_
  · exact PathWrites.Antichain.layer (by simp [PathWrites.Antichain]) _
  · obtain ⟨r, hr, hcontains⟩ := hshadow
    obtain ⟨e, he, hle⟩ := recordContainsPath_iff.mp hcontains
    exact ⟨e, mem_writesOf.mpr ⟨r, hr, he⟩, hle⟩

/-- Erasing its places removes a write that no other one touches. -/
theorem layered_of_disjoint (hfree : Unobstructed earlier w later)
    (hshadow : ∀ r ∈ later, recordContainsPath r w.path = false)
    (hoverlap : ∀ r ∈ earlier ++ later, ¬ w.path <+: r.path) :
    (w.writes.map Prod.fst).foldl FCompoundWrite.removeWriteAtPath
        (emptyWrite.addWrites (writesOf (earlier ++ w :: later))) =
      emptyWrite.addWrites (writesOf (earlier ++ later)) := by
  obtain ⟨hold, hnew⟩ := valid_layered hvalid
  obtain ⟨hnodes, hnodes'⟩ := nodes_layered hvalid
  obtain ⟨herased, hnodesErased⟩ := nodes_foldl_removeWriteAtPath hold (w.writes.map Prod.fst)
  have hnot : ∀ r ∈ later, ∀ e ∈ r.writes, ¬ e.1 <+: w.path := by
    intro r hr e he hle
    have hcontains := recordContainsPath_iff.mpr ⟨e, he, hle⟩
    rw [hshadow r hr] at hcontains
    cases hcontains
  refine FCompoundWrite.ext_nodes herased.good hnew.good ?_
  rw [hnodesErased, hnodes, hnodes']
  refine PathWrites.layer_eq_erase hfree.clear ?_ (fun e he => FWriteRecord.path_le he) ?_
  · intro q hq
    cases hval : PathWrites.layer updateChild (fun _ => none) (writesOf earlier) q with
    | none => rfl
    | some n =>
      rcases PathWrites.exists_of_layer hval with hnone | ⟨e, he, rfl⟩
      · cases hnone
      · obtain ⟨r, hr, he⟩ := mem_writesOf.mp he
        exact (hoverlap r (List.mem_append_left _ hr) (hfree.earlier r hr e he (.inr hq))).elim
  · intro e he
    obtain ⟨r, hr, he⟩ := mem_writesOf.mp he
    refine ⟨hnot r hr e he, fun hle => ?_⟩
    by_cases heq : e.1 = w.path
    · exact hnot r hr e he (heq ▸ List.prefix_rfl)
    · exact hoverlap r (List.mem_append_right _ hr) (hfree.later r hr e he hle heq)

end Layered

omit [FKey κ] in
theorem exists_shadows_iff :
    (∃ x ∈ (earlier ++ later).zipIdx.reverse, Shadows w earlier.length x) ↔
      ∃ r ∈ later, r.visible = true ∧ recordContainsPath r w.path = true := by
  constructor
  · rintro ⟨⟨r, i⟩, hx, hvisible, hindex, hcontains⟩
    rw [List.mem_reverse, List.mk_mem_zipIdx_iff_getElem?, List.getElem?_append_right hindex] at hx
    exact ⟨r, List.mem_of_getElem? hx, hvisible, hcontains⟩
  · rintro ⟨r, hr, hvisible, hcontains⟩
    obtain ⟨i, hi⟩ := List.mem_iff_getElem?.mp hr
    refine ⟨(r, earlier.length + i), ?_, hvisible, Nat.le_add_right _ _, hcontains⟩
    rw [List.mem_reverse, List.mk_mem_zipIdx_iff_getElem?,
      List.getElem?_append_right (Nat.le_add_right _ _), Nat.add_sub_cancel_left, hi]

theorem removeWriteId_eq {t : FWriteTree κ ν} (hall : t.allWrites = earlier ++ w :: later)
    (hfirst : ∀ r ∈ earlier, r.writeId ≠ w.writeId) :
    t.removeWriteId w.writeId = some (finishRemoval { t with allWrites := earlier ++ later } w
      (removalLoop w earlier.length (earlier ++ later).zipIdx.reverse (w.visible, false))) := by
  have hfind : (earlier ++ w :: later).findIdx? (fun r => decide (r.writeId = w.writeId)) =
      some earlier.length := by
    rw [List.findIdx?_append, List.findIdx?_eq_none_iff.mpr (by simpa using hfirst),
      List.findIdx?_cons]
    simp
  have hget : (earlier ++ w :: later)[earlier.length]? = some w := by
    rw [List.getElem?_append_right (Nat.le_refl _), Nat.sub_self, List.getElem?_cons_zero]
  have herase : (earlier ++ w :: later).eraseIdx earlier.length = earlier ++ later := by
    rw [List.eraseIdx_append_of_length_le (Nat.le_refl _), Nat.sub_self, List.eraseIdx_cons_zero]
  unfold removeWriteId
  simp only [hall, hfind, hget, herase]

omit [FKey κ] in
/-- The three outcomes of the loop. -/
theorem removalLoop_cases (hvisible : ∀ r ∈ earlier ++ later, r.visible = true) :
    ((∃ r ∈ later, recordContainsPath r w.path = true) ∧
      ∃ overlaps, removalLoop w earlier.length (earlier ++ later).zipIdx.reverse (true, false) =
        (false, overlaps)) ∨
    removalLoop w earlier.length (earlier ++ later).zipIdx.reverse (true, false) = (true, true) ∨
    ((∀ r ∈ later, recordContainsPath r w.path = false) ∧
      (∀ r ∈ earlier ++ later, ¬ w.path <+: r.path) ∧
      removalLoop w earlier.length (earlier ++ later).zipIdx.reverse (true, false) =
        (true, false)) := by
  by_cases hshadow : ∃ r ∈ later, recordContainsPath r w.path = true
  · refine .inl ⟨hshadow, _, Prod.ext (removalLoop_of_shadowed (exists_shadows_iff.mpr ?_) _) rfl⟩
    obtain ⟨r, hr, hcontains⟩ := hshadow
    exact ⟨r, hr, hvisible r (List.mem_append_right _ hr), hcontains⟩
  · have hnot : ∀ x ∈ (earlier ++ later).zipIdx.reverse, ¬ Shadows w earlier.length x := by
      intro x hx hs
      obtain ⟨r, hr, -, hcontains⟩ := exists_shadows_iff.mp ⟨x, hx, hs⟩
      exact hshadow ⟨r, hr, hcontains⟩
    rw [removalLoop_of_not_shadowed hnot, Bool.false_or]
    cases hany : (earlier ++ later).zipIdx.reverse.any
        fun x => x.1.visible && FPath.contains w.path x.1.path with
    | true => exact .inr (.inl rfl)
    | false =>
      refine .inr (.inr ⟨fun r hr => ?_, fun r hr hle => ?_, rfl⟩)
      · by_contra hcontains
        exact hshadow ⟨r, hr, by simpa using hcontains⟩
      · obtain ⟨i, hi⟩ := List.mem_iff_getElem?.mp hr
        have hmem : (r, i) ∈ (earlier ++ later).zipIdx.reverse := by
          rw [List.mem_reverse, List.mk_mem_zipIdx_iff_getElem?, hi]
        rw [List.any_eq_false] at hany
        exact hany (r, i) hmem (by simp [hvisible r hr, FPath.contains_iff.mpr hle])

theorem lastWriteId_resetTree (t : FWriteTree κ ν) :
    t.resetTree.lastWriteId = -1 ∨ ∃ r ∈ t.allWrites, t.resetTree.lastWriteId = r.writeId := by
  unfold resetTree
  cases hlast : t.allWrites.getLast? with
  | none => exact .inl rfl
  | some r => exact .inr ⟨r, List.mem_of_getLast? hlast, rfl⟩

/-- Removing an unobstructed write leaves what laying the other writes
would give. -/
theorem Coherent.removeWriteId {t : FWriteTree κ ν} (h : Coherent t)
    (hall : t.allWrites = earlier ++ w :: later)
    (hfirst : ∀ r ∈ earlier, r.writeId ≠ w.writeId) (hfree : Unobstructed earlier w later) :
    ∃ t' b, t.removeWriteId w.writeId = some (t', b) ∧ Coherent t' ∧
      t'.allWrites = earlier ++ later ∧ (t'.lastWriteId = t.lastWriteId ∨ t'.lastWriteId = -1 ∨
        ∃ r ∈ t'.allWrites, t'.lastWriteId = r.writeId) := by
  have hvalid : ∀ r ∈ earlier ++ w :: later, ∀ e ∈ r.writes, ValidWrite e := hall ▸ h.valid
  have hvisible : ∀ r ∈ earlier ++ later, r.visible = true := fun r hr =>
    h.visible r (hall ▸ mem_of_mem_rest hr)
  have hold : t.visibleWrites = emptyWrite.addWrites (writesOf (earlier ++ w :: later)) := by
    rw [h.layered, hall, layerTreeFromWrites_root]
  have hcoherent : ∀ t' : FWriteTree κ ν, t'.allWrites = earlier ++ later →
      t'.visibleWrites = emptyWrite.addWrites (writesOf (earlier ++ later)) → Coherent t' := by
    intro t' hall' hlayered
    refine ⟨fun r hr => hvalid r (mem_of_mem_rest (hall' ▸ hr)),
      fun r hr => hvisible r (hall' ▸ hr), ?_⟩
    rw [hlayered, hall', layerTreeFromWrites_root]
  rw [removeWriteId_eq hall hfirst, h.visible w (hall ▸ by simp)]
  rcases removalLoop_cases (w := w) hvisible with
    ⟨hshadow, overlaps, hloop⟩ | hloop | ⟨hshadow, hoverlap, hloop⟩
  · rw [hloop]
    refine ⟨_, false, rfl, hcoherent _ rfl ?_, rfl, .inl rfl⟩
    exact hold.trans (layered_of_shadowed hvalid hfree hshadow)
  · rw [hloop]
    refine ⟨_, true, rfl, hcoherent _ rfl (layerTreeFromWrites_root _), rfl, .inr ?_⟩
    exact lastWriteId_resetTree _
  · rw [hloop]
    refine ⟨_, true, rfl, hcoherent _ rfl ?_, rfl, .inl rfl⟩
    dsimp only
    rw [hold]
    exact layered_of_disjoint hvalid hfree hshadow hoverlap

end Removal

/-! ## Adding a write -/

theorem coherent_init : Coherent (init : FWriteTree κ ν) where
  valid := by simp [init]
  visible := by simp [init]
  layered := rfl

/-- A new visible record on top of the others. -/
theorem Coherent.push {t t' : FWriteTree κ ν} (h : Coherent t) {r : FWriteRecord κ ν}
    (hr : ∀ e ∈ r.writes, ValidWrite e) (hvisible : r.visible = true)
    (hall : t'.allWrites = t.allWrites ++ [r])
    (hadd : t'.visibleWrites = t.visibleWrites.addWrites r.writes) : Coherent t' where
  valid x hx := by
    rcases List.mem_append.mp (hall ▸ hx) with hx | hx
    · exact h.valid x hx
    · rw [List.mem_singleton.mp hx]
      exact hr
  visible x hx := by
    rcases List.mem_append.mp (hall ▸ hx) with hx | hx
    · exact h.visible x hx
    · rw [List.mem_singleton.mp hx]
      exact hvisible
  layered := by
    rw [hadd, h.layered, hall, layerTreeFromWrites_root, layerTreeFromWrites_root]
    simp [FCompoundWrite.addWrites, writesOf, List.flatMap_append, List.foldl_append]

theorem Coherent.addOverwriteAtPath {t : FWriteTree κ ν} (h : Coherent t) {path : FPath κ}
    {newData : FNode κ ν} (hwrite : ValidWrite (path, newData)) {writeId : Int}
    (hid : t.lastWriteId < writeId) :
    ∃ t', t.addOverwriteAtPath path newData writeId true = some t' ∧ Coherent t' ∧
      t'.lastWriteId = writeId ∧
      t'.allWrites = t.allWrites ++ [⟨writeId, path, .overwrite newData, true⟩] := by
  rw [FWriteTree.addOverwriteAtPath, if_pos hid]
  refine ⟨_, rfl, h.push ?_ rfl rfl rfl, rfl, rfl⟩
  intro e he
  rw [List.mem_singleton.mp he]
  exact hwrite

theorem Coherent.addMergeAtPath {t : FWriteTree κ ν} (h : Coherent t) {path : FPath κ}
    {merge : FCompoundWrite κ ν}
    (hwrites : ∀ e ∈ merge.enumerateWrites, ValidWrite (path ++ e.1, e.2)) {writeId : Int}
    (hid : t.lastWriteId < writeId) :
    ∃ t', t.addMergeAtPath path merge writeId = some t' ∧ Coherent t' ∧
      t'.lastWriteId = writeId ∧
      t'.allWrites = t.allWrites ++ [⟨writeId, path, .merge merge, true⟩] := by
  rw [FWriteTree.addMergeAtPath, if_pos hid]
  refine ⟨_, rfl, h.push ?_ rfl rfl ?_, rfl, rfl⟩
  · intro e he
    obtain ⟨e', he', rfl⟩ := List.mem_map.mp he
    exact hwrites e' he'
  · exact FCompoundWrite.addCompoundWrite_eq _ merge path

omit [FKey κ] [DecidableEq κ] in
/-- The oldest of a list of overwrites can always be removed. -/
theorem unobstructed_of_oldest {w : FWriteRecord κ ν} {later : List (FWriteRecord κ ν)}
    (h : ∀ r ∈ later, ∃ n, r.write = .overwrite n) : Unobstructed [] w later where
  earlier := by simp
  later r hr e he hle _ := by
    obtain ⟨n, hn⟩ := h r hr
    rw [FWriteRecord.writes, hn] at he
    rw [List.mem_singleton.mp he] at hle
    exact hle

/-! ## What is shown at a place -/

section Shown

variable {t : FWriteTree κ ν} {p : FPath κ}

theorem Coherent.valid_visibleWrites (h : Coherent t) : Valid t.visibleWrites := by
  rw [h.layered, layerTreeFromWrites_root]
  refine valid_emptyWrite.addWrites fun e he => ?_
  obtain ⟨r, hr, he⟩ := mem_writesOf.mp he
  exact h.valid r hr e he

theorem applyToNode_of_isEmpty {w : FCompoundWrite κ ν} (hempty : w.isEmpty = true)
    (n : FNode κ ν) : w.applyToNode n = n := by
  cases w with
  | mk tree =>
    have htree : tree = .empty := FImmutableTree.eq_empty hempty
    rw [htree]
    rfl

theorem applyToNode_initWithValue (m n : FNode κ ν) :
    FCompoundWrite.applyToNode ⟨.initWithValue (some m)⟩ n = m := by
  rw [FCompoundWrite.applyToNode, FImmutableTree.initWithValue, FCompoundWrite.applySubtreeWrite,
    FNode.updateChild_nil]

/-- What is shown at a place whose server value is known. -/
theorem calculate_fast (h : Valid t.visibleWrites) (p : FPath κ) (server : FNode κ ν) :
    t.calculateCompleteEventCacheAtPath p (some server) none false =
      some ((t.visibleWrites.childCompoundWriteAtPath p).applyToNode server) := by
  rw [calculateCompleteEventCacheAtPath, if_pos ⟨rfl, rfl⟩]
  have hchild := FCompoundWrite.childCompoundWriteAtPath_eq h p
  cases hcomplete : t.visibleWrites.completeNodeAtPath p with
  | some n =>
    rw [hcomplete] at hchild
    rw [hchild, applyToNode_initWithValue]
  | none =>
    dsimp only
    split
    · next hempty => rw [applyToNode_of_isEmpty hempty]
    · rfl

/-- The pending writes, laid at the place, are the part of the compound
write there. -/
theorem Coherent.layer_eq_child (h : Coherent t) (hp : Plain p) {filter : FWriteRecord κ ν → Bool}
    (hmerge : ∀ r ∈ t.allWrites, ∀ merge, r.write = .merge merge → r.path <+: p → p <+: r.path)
    (hfilter : ∀ r ∈ t.allWrites, filter r = false → ¬ r.path <+: p ∧ ¬ p <+: r.path) :
    layerTreeFromWrites t.allWrites filter p = t.visibleWrites.childCompoundWriteAtPath p := by
  have hwrites : ∀ e ∈ writesOf t.allWrites, ValidWrite e := by
    intro e he
    obtain ⟨r, hr, he⟩ := mem_writesOf.mp he
    exact h.valid r hr e he
  have hlocal : ∀ e ∈ (writesOf t.allWrites).filterMap (PathWrites.localise getChild p),
      ValidWrite e := by
    intro e he
    obtain ⟨e', he', hloc⟩ := List.mem_filterMap.mp he
    obtain ⟨q, n⟩ := e'
    have hw := hwrites _ he'
    rcases PathWrites.place_cases q p with ⟨s, rfl⟩ | ⟨s, hs, rfl⟩ | ⟨hqp, hpq⟩
    · rw [PathWrites.localise_inside] at hloc
      cases hloc
      exact ⟨(plain_append.mp hw.plain).2, hw.wf⟩
    · rw [PathWrites.localise_above n hs] at hloc
      cases hloc
      exact ⟨by simp [Plain], FNode.wf_getChild hw.wf (plain_append.mp hp).2⟩
    · rw [PathWrites.localise_beside n hqp hpq] at hloc
      cases hloc
  have hvalid := h.valid_visibleWrites
  rw [layerTreeFromWrites_eq hmerge hfilter]
  refine FCompoundWrite.ext_nodes (valid_emptyWrite.addWrites hlocal).good
    (hvalid.childCompoundWriteAtPath hp).good ?_
  rw [FCompoundWrite.nodes_addWrites valid_emptyWrite hlocal,
    FCompoundWrite.nodes_childCompoundWriteAtPath hvalid, h.layered, layerTreeFromWrites_root,
    FCompoundWrite.nodes_addWrites valid_emptyWrite hwrites, nodes_emptyWrite,
    places_node.below_layer (by simp [PathWrites.Antichain]) (by simp) hp
      fun e he => ⟨(hwrites e he).plain, (hwrites e he).wf⟩, PathWrites.below_empty]

/-- Where the server value is known or not: the value under the part of
the compound write at the place. -/
theorem calculate_excluding (ids : List Int) (server : Option (FNode κ ν)) :
    t.calculateCompleteEventCacheAtPath p server (some ids) false =
      if (t.visibleWrites.childCompoundWriteAtPath p).isEmpty then server
      else if server.isNone &&
          !(t.visibleWrites.childCompoundWriteAtPath p).hasCompleteWriteAtPath [] then none
      else some ((layerTreeFromWrites t.allWrites (eventCacheFilter p (some ids) false)
        p).applyToNode (server.getD .emptyNode)) := by
  simp [calculateCompleteEventCacheAtPath]

omit [FKey κ] in
theorem eventCacheFilter_eq_false {r : FWriteRecord κ ν} (hvisible : r.visible = true)
    (h : eventCacheFilter p (some []) false r = false) : ¬ r.path <+: p ∧ ¬ p <+: r.path := by
  simp only [eventCacheFilter, hvisible, List.contains_nil, Bool.not_false, Bool.or_false,
    Bool.and_self, Bool.true_and, Bool.or_eq_false_iff] at h
  constructor
  · intro hle
    rw [FPath.contains_iff.mpr hle] at h
    cases h.1
  · intro hle
    rw [FPath.contains_iff.mpr hle] at h
    cases h.2

/-- The value computed from the compound write is the one computed from the
pending writes themselves. -/
theorem Coherent.fast_eq_slow (h : Coherent t) (hp : Plain p) (server : Option (FNode κ ν))
    (hmerge : ∀ r ∈ t.allWrites, ∀ merge, r.write = .merge merge → r.path <+: p → p <+: r.path) :
    t.calculateCompleteEventCacheAtPath p server none false =
      t.calculateCompleteEventCacheAtPath p server (some []) false := by
  have hchild := FCompoundWrite.childCompoundWriteAtPath_eq h.valid_visibleWrites p
  rw [calculate_excluding, h.layer_eq_child hp hmerge fun r hr hfilter =>
    eventCacheFilter_eq_false (h.visible r hr) hfilter]
  cases hcomplete : t.visibleWrites.completeNodeAtPath p with
  | some n =>
    rw [hcomplete] at hchild
    have hroot : FCompoundWrite.hasCompleteWriteAtPath
        (⟨.initWithValue (some n)⟩ : FCompoundWrite κ ν) [] = true := by
      rw [FCompoundWrite.hasCompleteWriteAtPath, FCompoundWrite.completeNodeAtPath_nil]
      rfl
    rw [hchild, applyToNode_initWithValue, hroot]
    simp [calculateCompleteEventCacheAtPath, hcomplete, FCompoundWrite.isEmpty,
      FImmutableTree.isEmpty, FImmutableTree.initWithValue, FImmutableTree.value]
  | none => simp [calculateCompleteEventCacheAtPath, hcomplete]

/-- Two places one below the other are shown consistently. -/
theorem Coherent.calculate_append (h : Coherent t) {q : FPath κ} (hpq : Plain (p ++ q))
    {server : FNode κ ν} (hserver : WF server) :
    t.calculateCompleteEventCacheAtPath (p ++ q) (some (server.getChild q)) none false =
      (t.calculateCompleteEventCacheAtPath p (some server) none false).map fun n => n.getChild q := by
  have hvalid := h.valid_visibleWrites
  obtain ⟨hp, hq⟩ := plain_append.mp hpq
  have hchild := hvalid.childCompoundWriteAtPath hp
  have hnested : (t.visibleWrites.childCompoundWriteAtPath p).childCompoundWriteAtPath q =
      t.visibleWrites.childCompoundWriteAtPath (p ++ q) := by
    refine FCompoundWrite.ext_nodes (hchild.childCompoundWriteAtPath hq).good
      (hvalid.childCompoundWriteAtPath hpq).good ?_
    rw [FCompoundWrite.nodes_childCompoundWriteAtPath hchild,
      FCompoundWrite.nodes_childCompoundWriteAtPath hvalid,
      FCompoundWrite.nodes_childCompoundWriteAtPath hvalid,
      places_node.below_below hvalid.antichain hpq]
  rw [calculate_fast hvalid, calculate_fast hvalid, Option.map_some,
    FCompoundWrite.getChild_applyToNode_eq hchild hserver hq, hnested]

end Shown

end FWriteTree

end BetweenUS.FirebaseDatabase
