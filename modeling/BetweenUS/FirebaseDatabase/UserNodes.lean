/-
BetweenUS.FirebaseDatabase.UserNodes — a client that only sets the nodes
under `users`, and a server that settles its writes in any order.

`Storage.Store` is what the rest of the development takes the database to
be: one value for each node, and the unsettled writes laid over it. Here
the repo and its write tree are run against that store. A write tree can
show what is not pending any more (`FRepo.stale_run`), but only where one
write lies below another, and the nodes under `users` lie beside each
other:

* `Refines` — the writes of the store are the pending records, and its
  server values are read from the server's tree;
* `refines_step` — setting a node is `Store.write`, and the settlement of
  the i-th pending write is `Store.acknowledge i` or `Store.revert i`;
* `shown_eq_view` — after every run a node shows what the store's view has.
-/
import BetweenUS.FirebaseDatabase.FRepo
import BetweenUS.Storage.PendingWrites

namespace BetweenUS.FirebaseDatabase

open Runs (run)
open Storage (Store)
open FKey (dotPriority)
open FNode (WF Plain)

/-- A key that names a child. -/
abbrev PlainKey (κ : Type) [FKey κ] := { k : κ // k ≠ dotPriority }

/-- A well-formed node. -/
abbrev ValidNode (κ ν : Type) [FKey κ] := { n : FNode κ ν // WF n }

namespace UserNodes

variable {κ ν : Type} [FKey κ] [DecidableEq κ]

/-! ## The client and the server -/

structure Client (κ ν : Type) where
  repo : FRepo κ ν
  root : FNode κ ν

/-- A settlement names a pending write by its position. -/
inductive Event (κ ν : Type) [FKey κ] where
  | setValue (k : PlainKey κ) (node : ValidNode κ ν)
  | accepted (i : Nat)
  | rejected (i : Nat)

def Client.start (root : ValidNode κ ν) : Client κ ν := ⟨.start, root.1⟩

/-- The place of a node under `users`. -/
def place (users k : PlainKey κ) : FPath κ := [users.1, k.1]

/-- The server has taken a write into its tree, where it is a write, and
the client drops it. -/
def Client.accept (c : Client κ ν) (w : FWriteRecord κ ν) : Client κ ν :=
  { repo := c.repo.step (.ackWrite w.writeId)
    root := Storage.PathWrites.apply FNode.updateChild c.root w.writes }

def Client.step (users : PlainKey κ) (c : Client κ ν) : Event κ ν → Client κ ν
  | .setValue k node => { c with repo := c.repo.step (.set (place users k) node.1) }
  | .accepted i =>
      match c.repo.pendingWriteTree.allWrites[i]? with
      | some w => c.accept w
      | none => c
  | .rejected i =>
      match c.repo.pendingWriteTree.allWrites[i]? with
      | some w => { c with repo := c.repo.step (.ackWrite w.writeId) }
      | none => c

/-- What the client shows at a node. -/
def Client.shown (users : PlainKey κ) (c : Client κ ν) (k : PlainKey κ) : Option (FNode κ ν) :=
  c.repo.pendingWriteTree.calculateCompleteEventCacheAtPath (place users k)
    (some (c.root.getChild (place users k))) none false

/-! ## The store -/

def storeStart (users : PlainKey κ) (root : ValidNode κ ν) : Store (PlainKey κ) (FNode κ ν) :=
  ⟨fun k => root.1.getChild (place users k), []⟩

def storeStep (s : Store (PlainKey κ) (FNode κ ν)) : Event κ ν → Store (PlainKey κ) (FNode κ ν)
  | .setValue k node => s.write k node.1
  | .accepted i => s.acknowledge i
  | .rejected i => s.revert i

/-! ## Refinement -/

/-- The record of a write of the store, but for its identifier. -/
def recordOf (users : PlainKey κ) (e : PlainKey κ × FNode κ ν) : FPath κ × FWrite κ ν × Bool :=
  (place users e.1, .overwrite e.2, true)

structure Refines (users : PlainKey κ) (c : Client κ ν) (s : Store (PlainKey κ) (FNode κ ν)) :
    Prop where
  inv : c.repo.Inv
  wf : WF c.root
  server : ∀ k, s.server k = c.root.getChild (place users k)
  pending : c.repo.pendingWriteTree.allWrites.map (fun w => (w.path, w.write, w.visible)) =
    s.pending.map (recordOf users)

omit [DecidableEq κ] in
theorem plain_place (users k : PlainKey κ) : Plain (place users k) := by
  simp [Plain, place, users.2.symm, k.2.symm]

omit [DecidableEq κ] in
theorem place_inj {users k k' : PlainKey κ} : place users k = place users k' ↔ k = k' := by
  simp [place, Subtype.ext_iff]

omit [DecidableEq κ] in
theorem place_prefix_iff {users k k' : PlainKey κ} :
    place users k <+: place users k' ↔ k = k' := by
  constructor
  · intro hle
    exact place_inj.mp (hle.eq_of_length rfl)
  · rintro rfl
    exact List.prefix_rfl

/-- Every pending record is one of the store's writes. -/
theorem Refines.record {users : PlainKey κ} {c : Client κ ν}
    {s : Store (PlainKey κ) (FNode κ ν)} (h : Refines users c s) {w : FWriteRecord κ ν}
    (hw : w ∈ c.repo.pendingWriteTree.allWrites) :
    ∃ k n, w.path = place users k ∧ w.write = .overwrite n ∧ w.writes = [(place users k, n)] := by
  have hmem := List.mem_map_of_mem (f := fun w => (w.path, w.write, w.visible)) hw
  rw [h.pending] at hmem
  obtain ⟨⟨k, n⟩, -, heq⟩ := List.mem_map.mp hmem
  obtain ⟨hpath, hwrite, -⟩ : place users k = w.path ∧ FWrite.overwrite n = w.write ∧
      true = w.visible := by simpa [recordOf] using heq
  refine ⟨k, n, hpath.symm, hwrite.symm, ?_⟩
  rw [FWriteRecord.writes, ← hwrite, ← hpath]

/-- Writes at places beside each other settle in any order. -/
theorem Refines.unobstructed {users : PlainKey κ} {c : Client κ ν}
    {s : Store (PlainKey κ) (FNode κ ν)} (h : Refines users c s)
    {earlier later : List (FWriteRecord κ ν)} {w : FWriteRecord κ ν}
    (hall : c.repo.pendingWriteTree.allWrites = earlier ++ w :: later) :
    FWriteTree.Unobstructed earlier w later := by
  obtain ⟨k, n, hw, -⟩ := h.record (w := w) (by simp [hall])
  -- a write above or below the place is at the place
  have hbeside : ∀ r ∈ earlier ++ w :: later, ∀ e ∈ r.writes,
      e.1 <+: w.path ∨ w.path <+: e.1 → w.path <+: r.path := by
    intro r hr e he hle
    obtain ⟨k', n', hr', -, hwrites⟩ := h.record (w := r) (hall ▸ hr)
    rw [hwrites, List.mem_singleton] at he
    subst he
    rw [hw] at hle ⊢
    rw [hr']
    simp only [place_prefix_iff] at hle ⊢
    exact hle.elim Eq.symm id
  constructor
  · intro r hr e he hle
    exact hbeside r (List.mem_append_left _ hr) e he hle
  · intro r hr e he hle _
    exact hbeside r (by simp [hr]) e he (.inr hle)

/-! ### One event -/

theorem refines_start (users : PlainKey κ) (root : ValidNode κ ν) :
    Refines users (Client.start root) (storeStart users root) where
  inv := FRepo.inv_start
  wf := root.2
  server _ := rfl
  pending := rfl

section Step

variable {users : PlainKey κ} {c : Client κ ν} {s : Store (PlainKey κ) (FNode κ ν)}

theorem Refines.setValue (h : Refines users c s) (k : PlainKey κ) (node : ValidNode κ ν) :
    Refines users (c.step users (.setValue k node)) (s.write k node.1) := by
  have hwrite : FCompoundWrite.ValidWrite (place users k, node.1) :=
    ⟨plain_place users k, node.2⟩
  obtain ⟨tree, htree, hinv, hall⟩ := h.inv.set hwrite
  rw [Client.step, FRepo.step, htree, Option.getD_some]
  exact { inv := hinv
          wf := h.wf
          server := h.server
          pending := by simp [hall, h.pending, Store.write, recordOf] }

/-- The i-th pending record is dropped. -/
theorem Refines.drop (h : Refines users c s) {i : Nat} {w : FWriteRecord κ ν}
    (hi : c.repo.pendingWriteTree.allWrites[i]? = some w) :
    Refines users { c with repo := c.repo.step (.ackWrite w.writeId) } (s.revert i) := by
  have hall : c.repo.pendingWriteTree.allWrites =
      c.repo.pendingWriteTree.allWrites.take i ++
        w :: c.repo.pendingWriteTree.allWrites.drop (i + 1) := by
    obtain ⟨hlt, rfl⟩ := List.getElem?_eq_some_iff.mp hi
    rw [List.cons_getElem_drop_succ, List.take_append_drop]
  obtain ⟨tree, htree, hinv, hrest⟩ := h.inv.ackWrite hall (h.unobstructed hall)
  rw [FRepo.step, htree, Option.getD_some]
  refine ⟨hinv, h.wf, h.server, ?_⟩
  dsimp only
  rw [hrest, ← List.eraseIdx_eq_take_drop_succ, ← List.eraseIdx_map, h.pending, List.eraseIdx_map,
    Store.revert]

/-- The server takes the i-th pending record. -/
theorem Refines.accept (h : Refines users c s) {i : Nat} {w : FWriteRecord κ ν}
    (hi : c.repo.pendingWriteTree.allWrites[i]? = some w) :
    Refines users (c.accept w) (s.acknowledge i) := by
  have hmem := List.mem_of_getElem? hi
  have hentry : (s.pending[i]?).map (recordOf users) = some (w.path, w.write, w.visible) := by
    rw [← List.getElem?_map, ← h.pending, List.getElem?_map, hi, Option.map_some]
  obtain ⟨⟨k, n⟩, hkn, heq⟩ := Option.map_eq_some_iff.mp hentry
  obtain ⟨hpath, hwrite, -⟩ : place users k = w.path ∧ FWrite.overwrite n = w.write ∧
      true = w.visible := by simpa [recordOf] using heq
  have hwrites : w.writes = [(place users k, n)] := by
    rw [FWriteRecord.writes, ← hwrite, ← hpath]
  have hn : WF n := (h.inv.coherent.valid w hmem (place users k, n) (by simp [hwrites])).wf
  have hdrop := h.drop hi
  rw [Store.acknowledge, hkn]
  refine ⟨hdrop.inv, ?_, fun k' => ?_, hdrop.pending⟩
  · rw [Client.accept, hwrites]
    exact FNode.wf_updateChild h.wf hn (plain_place users k)
  · rw [Client.accept, hwrites]
    simp only [Storage.PathWrites.apply, List.foldl_cons, List.foldl_nil]
    by_cases hk : k' = k
    · subst hk
      rw [Function.update_self, FNode.getChild_updateChild_self h.wf hn (plain_place users k')]
    · rw [Function.update_of_ne hk, h.server,
        FNode.getChild_updateChild_beside h.wf hn (plain_place users k) (plain_place users k')
          (fun hle => hk (place_prefix_iff.mp hle).symm) fun hle => hk (place_prefix_iff.mp hle)]

/-- No settlement for a position that has no write. -/
theorem Refines.length_eq (h : Refines users c s) :
    c.repo.pendingWriteTree.allWrites.length = s.pending.length := by
  simpa using congrArg List.length h.pending

theorem refines_step (h : Refines users c s) (e : Event κ ν) :
    Refines users (c.step users e) (storeStep s e) := by
  cases e with
  | setValue k node => exact h.setValue k node
  | accepted i =>
    rw [Client.step, storeStep]
    split
    · next w hw => exact h.accept hw
    · next hnone =>
      rw [List.getElem?_eq_none_iff, h.length_eq, ← List.getElem?_eq_none_iff] at hnone
      rw [Store.acknowledge, hnone]
      exact h
  | rejected i =>
    rw [Client.step, storeStep]
    split
    · next w hw => exact h.drop hw
    · next hnone =>
      rw [List.getElem?_eq_none_iff, h.length_eq] at hnone
      rw [Store.revert, List.eraseIdx_of_length_le hnone]
      exact h

/-! ### What is shown -/

/-- A write to the node, or to another one. -/
theorem localise_place (users k k' : PlainKey κ) (n : FNode κ ν) :
    Storage.PathWrites.localise FNode.getChild (place users k) (place users k', n) =
      if k' = k then some ([], n) else none := by
  by_cases hk : k' = k
  · subst hk
    have hinside : Storage.PathWrites.localise FNode.getChild (place users k')
        (place users k' ++ [], n) = some ([], n) := Storage.PathWrites.localise_inside _ [] n
    rw [if_pos rfl]
    simpa using hinside
  · rw [if_neg hk]
    exact Storage.PathWrites.localise_beside n (fun hle => hk (place_prefix_iff.mp hle))
      fun hle => hk (place_prefix_iff.mp hle).symm

/-- Writes to one node, laid into one compound write, are the last of them. -/
theorem applyToNode_localised (users k : PlainKey κ) (ws : List (PlainKey κ × FNode κ ν))
    (w : FCompoundWrite κ ν) (server : FNode κ ν) :
    (w.addWrites ((ws.map fun e => (place users e.1, e.2)).filterMap
        (Storage.PathWrites.localise FNode.getChild (place users k)))).applyToNode server =
      Storage.overlay ws k (w.applyToNode server) := by
  induction ws generalizing w with
  | nil => rfl
  | cons e ws ih =>
    rw [List.map_cons, List.filterMap_cons, localise_place, Storage.overlay_cons]
    by_cases he : e.1 = k
    · rw [if_pos he, if_pos he]
      dsimp only
      have hroot : (w.addWrite e.2 []).applyToNode server = e.2 :=
        FWriteTree.applyToNode_initWithValue e.2 server
      rw [← hroot]
      exact ih (w.addWrite e.2 [])
    · rw [if_neg he, if_neg he]
      exact ih w

theorem Refines.writesOf_eq (h : Refines users c s) :
    FWriteTree.writesOf c.repo.pendingWriteTree.allWrites =
      s.pending.map fun e => (place users e.1, e.2) := by
  -- the writes of a record do not depend on its identifier
  have hall : c.repo.pendingWriteTree.allWrites.flatMap FWriteRecord.writes =
      (c.repo.pendingWriteTree.allWrites.map fun w => (w.path, w.write, w.visible)).flatMap
        fun x => FWriteRecord.writes ⟨0, x.1, x.2.1, x.2.2⟩ := by
    rw [List.flatMap_map]
    rfl
  rw [FWriteTree.writesOf, hall, h.pending, List.flatMap_map, List.map_eq_flatMap]
  rfl

theorem Refines.shown_eq (h : Refines users c s) (k : PlainKey κ) :
    c.shown users k = some (s.view k) := by
  have hmerge : ∀ r ∈ c.repo.pendingWriteTree.allWrites, ∀ merge, r.write = .merge merge →
      r.path <+: place users k → place users k <+: r.path := by
    intro r hr merge hmerge
    obtain ⟨_, _, -, hwrite, -⟩ := h.record hr
    rw [hwrite] at hmerge
    cases hmerge
  have hfilter : ∀ r ∈ c.repo.pendingWriteTree.allWrites, FWriteTree.defaultFilter r = false →
      ¬ r.path <+: place users k ∧ ¬ place users k <+: r.path := by
    intro r _ hr
    cases hr
  rw [Client.shown, FWriteTree.calculate_fast h.inv.coherent.valid_visibleWrites,
    ← h.inv.coherent.layer_eq_child (plain_place users k) hmerge hfilter,
    FWriteTree.layerTreeFromWrites_eq hmerge hfilter, h.writesOf_eq, applyToNode_localised,
    FWriteTree.applyToNode_of_isEmpty rfl, Store.view, h.server]

end Step

theorem refines_run (users : PlainKey κ) (root : ValidNode κ ν) (es : List (Event κ ν)) :
    Refines users (run (Client.step users) (Client.start root) es)
      (run storeStep (storeStart users root) es) :=
  Runs.simulation_run (R := Refines users) (fun _ _ e h => refines_step h e)
    (refines_start users root) es

/-- After every run of writes and settlements, in any order, each node
shows what the view of the store has. -/
theorem shown_eq_view (users : PlainKey κ) (root : ValidNode κ ν) (es : List (Event κ ν))
    (k : PlainKey κ) :
    (run (Client.step users) (Client.start root) es).shown users k =
      some ((run storeStep (storeStart users root) es).view k) :=
  (refines_run users root es).shown_eq k

end UserNodes

end BetweenUS.FirebaseDatabase
