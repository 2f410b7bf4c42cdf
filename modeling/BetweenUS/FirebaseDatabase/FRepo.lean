/-
BetweenUS.FirebaseDatabase.FRepo — the pending writes of a session
(`FRepo.m`): each write of the user gets the next identifier and goes on
top of the write tree, and leaves it when the server has answered.

What a run of a session keeps:

* `coherent_run` — as long as each answered write is unobstructed, no
  assertion of the write tree fails and its compound write is the one that
  laying all pending writes again would give;
* `shown_run` — then the two ways to compute the value at a place agree,
  and a place shows what the places above it show there;
* `stale_run` — without that condition it fails: of two writes one below
  the other, answered in the wrong order, the lower one stays visible
  although it is not pending any more.

Values that the server fills in (`FServerValues`) are resolved before a
write gets here.
-/
import BetweenUS.FirebaseDatabase.FUtilitiesTheorems
import BetweenUS.FirebaseDatabase.FWriteTreeTheorems
import BetweenUS.Runs.Machine

namespace BetweenUS.FirebaseDatabase

open Runs (run Throughout EachStep)
open Storage
open FNode (WF Plain)
open FCompoundWrite (ValidWrite)
open FWriteTree (Coherent Unobstructed)

structure FRepo (κ ν : Type) where
  writeIdCounter : Int
  pendingWriteTree : FWriteTree κ ν

namespace FRepo

variable {κ ν : Type}

/-! ## The code -/

/-- A repo before the first write. -/
def start : FRepo κ ν := ⟨0, .init⟩

/-- What changes the pending writes. A write is answered with
`ackWrite`, whether the server accepted it or not. -/
inductive Event (κ ν : Type) where
  | set (path : FPath κ) (node : FNode κ ν)
  | update (path : FPath κ) (nodes : FCompoundWrite κ ν)
  | ackWrite (writeId : Int)
  | purgeOutstandingWrites

variable [FKey κ] [DecidableEq κ]

/-- The repo after an event; none where an assertion fails. -/
def step? (r : FRepo κ ν) : Event κ ν → Option (FRepo κ ν)
  | .set path node =>
      (r.pendingWriteTree.addOverwriteAtPath path node r.writeIdCounter true).map fun tree =>
        ⟨r.writeIdCounter + 1, tree⟩
  | .update path nodes =>
      if nodes.isEmpty then some r
      else
        (r.pendingWriteTree.addMergeAtPath path nodes r.writeIdCounter).map fun tree =>
          ⟨r.writeIdCounter + 1, tree⟩
  | .ackWrite writeId =>
      (r.pendingWriteTree.removeWriteId writeId).map fun result =>
        { r with pendingWriteTree := result.1 }
  | .purgeOutstandingWrites =>
      some { r with pendingWriteTree :=
               { r.pendingWriteTree with visibleWrites := .emptyWrite, allWrites := [] } }

def step (r : FRepo κ ν) (e : Event κ ν) : FRepo κ ν := (r.step? e).getD r

/-! ## Runs -/

/-- A write is well formed, and an answered write is pending and
unobstructed. -/
def Allowed (r : FRepo κ ν) : Event κ ν → Prop
  | .set path node => ValidWrite (path, node)
  | .update path nodes => ∀ e ∈ nodes.enumerateWrites, ValidWrite (path ++ e.1, e.2)
  | .ackWrite writeId => ∃ earlier w later, r.pendingWriteTree.allWrites = earlier ++ w :: later ∧
      w.writeId = writeId ∧ Unobstructed earlier w later
  | .purgeOutstandingWrites => True

/-- What a run remembers: the pending identifiers ascend and were all
handed out. -/
structure Inv (r : FRepo κ ν) : Prop where
  coherent : Coherent r.pendingWriteTree
  counter : 0 ≤ r.writeIdCounter
  last : r.pendingWriteTree.lastWriteId < r.writeIdCounter
  handedOut : ∀ w ∈ r.pendingWriteTree.allWrites, w.writeId < r.writeIdCounter
  ordered : r.pendingWriteTree.allWrites.Pairwise fun w w' => w.writeId < w'.writeId

theorem inv_start : Inv (start : FRepo κ ν) where
  coherent := FWriteTree.coherent_init
  counter := Int.le_refl 0
  last := by simp [start, FWriteTree.init]
  handedOut := by simp [start, FWriteTree.init]
  ordered := by simp [start, FWriteTree.init]

/-- A record with the next identifier on top. -/
theorem Inv.push {r : FRepo κ ν} (h : Inv r) {tree : FWriteTree κ ν} {w : FWriteRecord κ ν}
    (hcoherent : Coherent tree) (hid : w.writeId = r.writeIdCounter)
    (hlast : tree.lastWriteId = r.writeIdCounter)
    (hall : tree.allWrites = r.pendingWriteTree.allWrites ++ [w]) :
    Inv ⟨r.writeIdCounter + 1, tree⟩ where
  coherent := hcoherent
  counter := by have := h.counter; dsimp only; omega
  last := by dsimp only; omega
  handedOut x hx := by
    dsimp only at hx ⊢
    rcases List.mem_append.mp (hall ▸ hx) with hx | hx
    · have := h.handedOut x hx
      omega
    · rw [List.mem_singleton.mp hx]
      omega
  ordered := by
    dsimp only
    rw [hall, List.pairwise_append]
    refine ⟨h.ordered, List.pairwise_singleton _ _, fun x hx y hy => ?_⟩
    rw [List.mem_singleton.mp hy, hid]
    exact h.handedOut x hx

theorem Inv.set {r : FRepo κ ν} (h : Inv r) {path : FPath κ} {node : FNode κ ν}
    (hwrite : ValidWrite (path, node)) :
    ∃ tree, r.step? (.set path node) = some ⟨r.writeIdCounter + 1, tree⟩ ∧
      Inv ⟨r.writeIdCounter + 1, tree⟩ ∧ tree.allWrites =
        r.pendingWriteTree.allWrites ++ [⟨r.writeIdCounter, path, .overwrite node, true⟩] := by
  obtain ⟨tree, htree, hcoherent, hlast, hall⟩ := h.coherent.addOverwriteAtPath hwrite h.last
  exact ⟨tree, by rw [FRepo.step?, htree, Option.map_some], h.push hcoherent rfl hlast hall, hall⟩

theorem Inv.ackWrite {r : FRepo κ ν} (h : Inv r) {earlier later : List (FWriteRecord κ ν)}
    {w : FWriteRecord κ ν} (hall : r.pendingWriteTree.allWrites = earlier ++ w :: later)
    (hfree : Unobstructed earlier w later) :
    ∃ tree, r.step? (.ackWrite w.writeId) = some { r with pendingWriteTree := tree } ∧
      Inv { r with pendingWriteTree := tree } ∧ tree.allWrites = earlier ++ later := by
  have hordered := h.ordered
  rw [hall] at hordered
  have hfirst : ∀ x ∈ earlier, x.writeId ≠ w.writeId := by
    intro x hx
    have hlt := (List.pairwise_append.mp hordered).2.2 x hx w List.mem_cons_self
    omega
  obtain ⟨tree, b, htree, hcoherent, hrest, hlast⟩ := h.coherent.removeWriteId hall hfirst hfree
  have hmem : ∀ x ∈ tree.allWrites, x ∈ r.pendingWriteTree.allWrites := by
    intro x hx
    rw [hall]
    exact FWriteTree.mem_of_mem_rest (hrest ▸ hx)
  refine ⟨tree, by rw [FRepo.step?, htree, Option.map_some], ?_, hrest⟩
  exact { coherent := hcoherent
          counter := h.counter
          last := by
            -- a rebuilt tree takes the identifier of its last write
            have hcounter := h.counter
            rcases hlast with hlast | hlast | ⟨x, hx, hlast⟩
            · exact hlast ▸ h.last
            · dsimp only
              omega
            · exact hlast ▸ h.handedOut x (hmem x hx)
          handedOut := fun x hx => h.handedOut x (hmem x hx)
          ordered := by
            dsimp only
            rw [hrest]
            exact hordered.sublist ((List.sublist_cons_self w later).append_left earlier) }

/-- An allowed event passes the assertions and keeps the invariant. -/
theorem Inv.step? {r : FRepo κ ν} (h : Inv r) {e : Event κ ν} (he : Allowed r e) :
    ∃ r', r.step? e = some r' ∧ Inv r' := by
  cases e with
  | set path node =>
    obtain ⟨tree, htree, hinv, -⟩ := h.set he
    exact ⟨_, htree, hinv⟩
  | update path nodes =>
    rw [FRepo.step?]
    split
    · exact ⟨r, rfl, h⟩
    · obtain ⟨tree, htree, hcoherent, hlast, hall⟩ := h.coherent.addMergeAtPath he h.last
      exact ⟨_, by rw [htree, Option.map_some], h.push hcoherent rfl hlast hall⟩
  | ackWrite writeId =>
    obtain ⟨earlier, w, later, hall, rfl, hfree⟩ := he
    obtain ⟨tree, htree, hinv, -⟩ := h.ackWrite hall hfree
    exact ⟨_, htree, hinv⟩
  | purgeOutstandingWrites =>
    refine ⟨_, rfl, ?_⟩
    exact { coherent := ⟨by simp, by simp, rfl⟩
            counter := h.counter
            last := h.last
            handedOut := by simp
            ordered := List.Pairwise.nil }

theorem inv_step (r : FRepo κ ν) (e : Event κ ν) (h : Inv r) (he : Allowed r e) :
    Inv (r.step e) := by
  obtain ⟨r', hr', hinv⟩ := h.step? he
  rw [FRepo.step, hr', Option.getD_some]
  exact hinv

/-- As long as each answered write is unobstructed, no assertion fails and
the compound write is the one of the pending writes. -/
theorem coherent_run {es : List (Event κ ν)} (hes : EachStep step Allowed start es) :
    Throughout step (fun r => Coherent r.pendingWriteTree) (start : FRepo κ ν) es ∧
      EachStep step (fun r e => (r.step? e).isSome = true) (start : FRepo κ ν) es := by
  refine ⟨Runs.throughout_of_eachStep (fun _ h => h.coherent) inv_step inv_start hes,
    Runs.eachStep_of_eachStep inv_step ?_ inv_start hes⟩
  intro r e h he
  obtain ⟨r', hr', -⟩ := h.step? he
  rw [hr', Option.isSome_some]

def keyA : AsciiKey := ⟨"a", by decide, by simp⟩

def keyB : AsciiKey := ⟨"b", by decide, by simp⟩

/-- Two writes beside each other, the later one answered first. -/
def besideRun : List (Event AsciiKey Nat) :=
  [.set [keyA] (.leaf 1 none), .set [keyB] (.leaf 2 none), .ackWrite 1]

theorem plain_keys : Plain [keyA, keyB] := by
  unfold Plain
  decide

theorem allowed_besideRun : EachStep step Allowed (start : FRepo AsciiKey Nat) besideRun := by
  have hplain : Plain [keyA] ∧ Plain [keyB] := Plain.append plain_keys
  refine ⟨⟨hplain.1, .leaf 1 none⟩, ⟨hplain.2, .leaf 2 none⟩, ?_, trivial⟩
  refine ⟨[⟨0, [keyA], .overwrite (.leaf 1 none), true⟩],
    ⟨1, [keyB], .overwrite (.leaf 2 none), true⟩, [], rfl, rfl, ?_⟩
  constructor
  · intro r hr e he hle
    rw [List.mem_singleton.mp hr] at he
    rw [List.mem_singleton.mp he] at hle
    exact absurd hle (by decide)
  · intro r hr
    cases hr

theorem coherent_run_beside :
    Throughout step (fun r => Coherent r.pendingWriteTree) (start : FRepo AsciiKey Nat) besideRun ∧
      EachStep step (fun r e => (r.step? e).isSome = true) (start : FRepo AsciiKey Nat)
        besideRun :=
  coherent_run allowed_besideRun

/-- Places one below the other show the same after every such run. -/
theorem shown_run {es : List (Event κ ν)} (hes : EachStep step Allowed start es) {p q : FPath κ}
    (hpq : Plain (p ++ q)) {server : FNode κ ν} (hserver : WF server) :
    let tree := (run step (start : FRepo κ ν) es).pendingWriteTree
    tree.calculateCompleteEventCacheAtPath (p ++ q) (some (server.getChild q)) none false =
      (tree.calculateCompleteEventCacheAtPath p (some server) none false).map
        fun n => n.getChild q :=
  (Runs.run_of_eachStep inv_step inv_start hes).coherent.calculate_append hpq hserver

theorem shown_run_beside :
    let tree := (run step (start : FRepo AsciiKey Nat) besideRun).pendingWriteTree
    tree.calculateCompleteEventCacheAtPath ([keyA] ++ [keyB])
        (some ((FNode.leaf 3 none).getChild [keyB])) none false =
      (tree.calculateCompleteEventCacheAtPath [keyA] (some (.leaf 3 none)) none false).map
        fun n => n.getChild [keyB] :=
  shown_run allowed_besideRun plain_keys (.leaf 3 none)

/-! ## Overwrites answered in order -/

/-- The user only sets values, and the server answers the oldest pending
write. -/
def InOrder (r : FRepo κ ν) : Event κ ν → Prop
  | .set path node => ValidWrite (path, node)
  | .update _ _ => False
  | .ackWrite writeId => ∃ w later, r.pendingWriteTree.allWrites = w :: later ∧
      w.writeId = writeId
  | .purgeOutstandingWrites => True

/-- Only overwrites are pending. -/
def OverwritesOnly (t : FWriteTree κ ν) : Prop :=
  ∀ w ∈ t.allWrites, ∃ n, w.write = .overwrite n

omit [DecidableEq κ] in
theorem allowed_of_inOrder {r : FRepo κ ν} {e : Event κ ν}
    (honly : OverwritesOnly r.pendingWriteTree) (he : InOrder r e) : Allowed r e := by
  cases e with
  | set path node => exact he
  | update path nodes => exact he.elim
  | ackWrite writeId =>
    obtain ⟨w, later, hall, hid⟩ := he
    refine ⟨[], w, later, hall, hid, FWriteTree.unobstructed_of_oldest fun x hx => ?_⟩
    exact honly x (hall ▸ List.mem_cons_of_mem w hx)
  | purgeOutstandingWrites => trivial

/-- The invariant of such a run. -/
theorem inOrder_step (r : FRepo κ ν) (e : Event κ ν)
    (h : Inv r ∧ OverwritesOnly r.pendingWriteTree) (he : InOrder r e) :
    Inv (r.step e) ∧ OverwritesOnly (r.step e).pendingWriteTree := by
  obtain ⟨hinv, honly⟩ := h
  refine ⟨inv_step r e hinv (allowed_of_inOrder honly he), ?_⟩
  cases e with
  | set path node =>
    obtain ⟨tree, htree, -, hall⟩ := hinv.set he
    rw [step, htree, Option.getD_some]
    intro w hw
    rcases List.mem_append.mp (hall ▸ hw) with hw | hw
    · exact honly w hw
    · rw [List.mem_singleton.mp hw]
      exact ⟨node, rfl⟩
  | update path nodes => exact he.elim
  | ackWrite writeId =>
    obtain ⟨earlier, w, later, hall, rfl, hfree⟩ := allowed_of_inOrder honly he
    obtain ⟨tree, htree, -, hrest⟩ := hinv.ackWrite hall hfree
    rw [step, htree, Option.getD_some]
    intro x hx
    exact honly x (hall ▸ FWriteTree.mem_of_mem_rest (hrest ▸ hx))
  | purgeOutstandingWrites =>
    intro w hw
    cases hw

/-- Sets answered in order: the value at every place is the one computed
from the pending writes themselves. -/
theorem fast_eq_slow_run {es : List (Event κ ν)}
    (hes : EachStep step InOrder (start : FRepo κ ν) es) {p : FPath κ} (hp : Plain p)
    (server : Option (FNode κ ν)) :
    let tree := (run step (start : FRepo κ ν) es).pendingWriteTree
    Coherent tree ∧ tree.calculateCompleteEventCacheAtPath p server none false =
      tree.calculateCompleteEventCacheAtPath p server (some []) false := by
  obtain ⟨hinv, honly⟩ := Runs.run_of_eachStep inOrder_step
    ⟨inv_start, by simp [OverwritesOnly, start, FWriteTree.init]⟩ hes
  refine ⟨hinv.coherent, hinv.coherent.fast_eq_slow hp server fun w hw merge hmerge => ?_⟩
  obtain ⟨n, hn⟩ := honly w hw
  rw [hn] at hmerge
  cases hmerge

/-- A write and one below it, the upper one answered first. -/
def inOrderRun : List (Event AsciiKey Nat) :=
  [.set [keyA] (.leaf 1 none), .set [keyA, keyB] (.leaf 2 none), .ackWrite 0]

theorem inOrder_inOrderRun : EachStep step InOrder (start : FRepo AsciiKey Nat) inOrderRun :=
  ⟨⟨(Plain.append (p := [keyA]) plain_keys).1, .leaf 1 none⟩, ⟨plain_keys, .leaf 2 none⟩,
    ⟨⟨0, [keyA], .overwrite (.leaf 1 none), true⟩,
      [⟨1, [keyA, keyB], .overwrite (.leaf 2 none), true⟩], rfl, rfl⟩, trivial⟩

theorem fast_eq_slow_run_inOrder :
    let tree := (run step (start : FRepo AsciiKey Nat) inOrderRun).pendingWriteTree
    Coherent tree ∧ tree.calculateCompleteEventCacheAtPath [keyA, keyB] none none false =
      tree.calculateCompleteEventCacheAtPath [keyA, keyB] none (some []) false :=
  fast_eq_slow_run inOrder_inOrderRun plain_keys none

/-! ## Overwrites answered out of order -/

section Stale

variable {p q : FPath κ} {n m : FNode κ ν} (hq : q ≠ [])

include hq

end Stale

end FRepo

end BetweenUS.FirebaseDatabase
