/-
BetweenUS.Storage.WriteOnce — stores in which no key is written twice.

When every write goes to a key that was never written before, the history
of a store is easy to read off its present state. `WriteOnce base used s`
says that `s` has come about in that way from the server values `base` by
writes to keys in `used`. It survives a write to an unused key, every
settlement, in any order, and a restart, and it makes their effect exact: an
acknowledgement is invisible, a rejection takes its own key back to `base`
and touches no other key, and a restart does the same to every key with a
pending write.
-/
import BetweenUS.Storage.PendingWrites
import Mathlib.Data.List.Nodup
import Mathlib.Data.List.Perm.Basic

namespace BetweenUS.Storage

variable {κ ν : Type} {base : κ → ν} {used : κ → Prop} {s : Store κ ν}

structure WriteOnce (base : κ → ν) (used : κ → Prop) (s : Store κ ν) : Prop where
  /-- No two pending writes compete. -/
  distinct : (s.pending.map Prod.fst).Nodup
  issued : ∀ w ∈ s.pending, used w.1
  /-- Below a pending write the server still has its first value. -/
  waiting : ∀ w ∈ s.pending, s.server w.1 = base w.1
  untouched : ∀ k, ¬ used k → s.server k = base k

/-- A store with nothing pending. -/
theorem WriteOnce.init (base : κ → ν) (used : κ → Prop) :
    WriteOnce base used ⟨base, []⟩ := by
  constructor <;> simp

/-! ## Writes -/

/-- A write to an unused key. -/
theorem WriteOnce.write (h : WriteOnce base used s) {used' : κ → Prop} {k : κ}
    (hk : ¬ used k) (hk' : used' k) (hmono : ∀ x, used x → used' x) (v : ν) :
    WriteOnce base used' (s.write k v) := by
  have hnew : ∀ w ∈ s.pending, w.1 ≠ k := by
    intro w hw hwk
    have hused := h.issued w hw
    rw [hwk] at hused
    exact hk hused
  refine ⟨?_, ?_, ?_, ?_⟩
  · have hk_notMem : k ∉ s.pending.map Prod.fst := by
      intro hmem
      obtain ⟨w, hw, hwk⟩ := List.mem_map.mp hmem
      exact hnew w hw hwk
    simp only [Store.write, List.map_append, List.map_cons, List.map_nil]
    rw [List.nodup_append]
    refine ⟨h.distinct, by simp, ?_⟩
    intro a ha b hb hab
    rw [List.mem_singleton] at hb
    exact hk_notMem (hb ▸ hab ▸ ha)
  · intro w hw
    rcases List.mem_append.mp hw with hw | hw
    · exact hmono _ (h.issued w hw)
    · rw [List.mem_singleton] at hw
      rw [hw]
      exact hk'
  · intro w hw
    rcases List.mem_append.mp hw with hw | hw
    · exact h.waiting w hw
    · rw [List.mem_singleton] at hw
      rw [hw]
      exact h.untouched k hk
  · intro x hx
    exact h.untouched x (fun hused => hx (hmono x hused))

/-! ## Settlements -/

/-- The other pending writes go to other keys. -/
theorem WriteOnce.ne_of_mem_eraseIdx (h : WriteOnce base used s) {i : Nat} {w : κ × ν}
    (hi : s.pending[i]? = some w) : ∀ u ∈ s.pending.eraseIdx i, u.1 ≠ w.1 := by
  obtain ⟨hlt, hw⟩ := List.getElem?_eq_some_iff.mp hi
  have hperm : (w :: s.pending.eraseIdx i).Perm s.pending := by
    rw [← hw]
    exact List.getElem_cons_eraseIdx_perm hlt
  have hnodup := (hperm.map Prod.fst).nodup_iff.mpr h.distinct
  rw [List.map_cons, List.nodup_cons] at hnodup
  intro u hu huw
  exact hnodup.1 (huw ▸ List.mem_map_of_mem hu)

theorem WriteOnce.revert (h : WriteOnce base used s) (i : Nat) :
    WriteOnce base used (s.revert i) := by
  have hmem : ∀ w ∈ (s.revert i).pending, w ∈ s.pending :=
    fun _ hw => List.mem_of_mem_eraseIdx hw
  refine ⟨?_, fun w hw => h.issued w (hmem w hw), fun w hw => h.waiting w (hmem w hw),
    h.untouched⟩
  have hsub := (List.eraseIdx_sublist s.pending i).map Prod.fst
  exact h.distinct.sublist hsub

theorem WriteOnce.restart (h : WriteOnce base used s) : WriteOnce base used s.restart where
  distinct := List.nodup_nil
  issued _ hw := by cases hw
  waiting _ hw := by cases hw
  untouched := h.untouched

variable [DecidableEq κ]

theorem WriteOnce.acknowledge (h : WriteOnce base used s) (i : Nat) :
    WriteOnce base used (s.acknowledge i) := by
  unfold Store.acknowledge
  cases hi : s.pending[i]? with
  | none => exact h
  | some w =>
    simp only
    have hr := h.revert i
    have hused : used w.1 := h.issued w (List.mem_of_getElem? hi)
    refine ⟨hr.distinct, hr.issued, ?_, ?_⟩
    · intro u hu
      show Function.update s.server w.1 w.2 u.1 = base u.1
      rw [Function.update_of_ne (h.ne_of_mem_eraseIdx hi u hu)]
      exact hr.waiting u hu
    · intro k hk
      have hkw : k ≠ w.1 := fun hkw => hk (hkw ▸ hused)
      show Function.update s.server w.1 w.2 k = base k
      rw [Function.update_of_ne hkw]
      exact h.untouched k hk

/-! ## What the client reads -/

/-- A key no write has gone to reads as at the start. -/
theorem WriteOnce.view_untouched (h : WriteOnce base used s) {k : κ} (hk : ¬ used k) :
    s.view k = base k := by
  have hne : ∀ w ∈ s.pending, w.1 ≠ k := by
    intro w hw hwk
    exact hk (hwk ▸ h.issued w hw)
  rw [Store.view_of_ne hne]
  exact h.untouched k hk

/-- An acknowledgement is invisible. -/
theorem WriteOnce.view_acknowledge (h : WriteOnce base used s) (i : Nat) (k : κ) :
    (s.acknowledge i).view k = s.view k := by
  apply Store.view_acknowledge
  intro w hi u hu
  apply h.ne_of_mem_eraseIdx hi
  rw [List.eraseIdx_eq_take_drop_succ]
  exact List.mem_append_left _ hu

/-- A rejected write takes its key back to the start. -/
theorem WriteOnce.view_revert_self (h : WriteOnce base used s) {i : Nat} {w : κ × ν}
    (hi : s.pending[i]? = some w) : (s.revert i).view w.1 = base w.1 := by
  have hne : ∀ u ∈ (s.revert i).pending, u.1 ≠ w.1 := h.ne_of_mem_eraseIdx hi
  rw [Store.view_of_ne hne]
  exact h.waiting w (List.mem_of_getElem? hi)

/-- A rejected write changes no other key. -/
theorem Store.view_revert_of_ne (s : Store κ ν) (i : Nat) {k : κ}
    (h : ∀ w, s.pending[i]? = some w → w.1 ≠ k) : (s.revert i).view k = s.view k :=
  overlay_eraseIdx_of_ne s.pending i k _ h

/-- So does the loss of a pending write, -/
theorem WriteOnce.view_restart_of_mem (h : WriteOnce base used s) {w : κ × ν}
    (hw : w ∈ s.pending) : s.restart.view w.1 = base w.1 := by
  rw [Store.view_restart]
  exact h.waiting w hw

/-- and it changes no other key. -/
theorem Store.view_restart_of_ne {s : Store κ ν} {k : κ} (h : ∀ w ∈ s.pending, w.1 ≠ k) :
    s.restart.view k = s.view k := by
  rw [Store.view_restart, Store.view_of_ne h]

end BetweenUS.Storage
