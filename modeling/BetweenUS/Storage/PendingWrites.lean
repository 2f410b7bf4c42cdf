/-
BetweenUS.Storage.PendingWrites — a remote store seen from a client that
applies its own writes at once.

The client sees the server's values with its own unsettled writes laid
over them in the order they were issued (`view`). A write is settled
later, and in one of two ways: the server ACKNOWLEDGES it, and then holds
the value, or it is REVERTED, and then the overlay simply loses it.
Settlements arrive in any order, so both operations address a pending
write by its position. The unsettled writes are the client's own memory: a
client that is started again has none (`restart`).

What a read returns after any history follows from three facts: a write
is read back and no other key notices it (`view_write`), a key with no
pending write reads as the server has it (`view_of_ne`), and acknowledging
a write that no earlier pending write competes with is invisible
(`view_acknowledge`). A second store may hold what is read from the values
of the first (`Shows`); every operation keeps that, and so do the views.

Keys and values are arbitrary; a store in which "nothing is there" is a
value has that value in `ν`.
-/
import Mathlib.Data.List.Basic
import Mathlib.Data.List.InsertIdx
import Mathlib.Logic.Function.Basic

namespace BetweenUS.Storage

variable {κ ν : Type} [DecidableEq κ]

/-! ## The store -/

/-- Server values and the client's unsettled writes, oldest first. -/
structure Store (κ ν : Type) where
  server : κ → ν
  pending : List (κ × ν)

/-- Lay writes over a value, oldest first: the last one to the key wins. -/
def overlay (ws : List (κ × ν)) (k : κ) (v : ν) : ν :=
  ws.foldl (fun acc w => if w.1 = k then w.2 else acc) v

/-- What the client reads at a key. -/
def Store.view (s : Store κ ν) (k : κ) : ν :=
  overlay s.pending k (s.server k)

/-- Issue a write: it is visible at once and unsettled. -/
def Store.write (s : Store κ ν) (k : κ) (v : ν) : Store κ ν :=
  { s with pending := s.pending ++ [(k, v)] }

/-- The server accepts the `i`-th pending write. -/
def Store.acknowledge (s : Store κ ν) (i : Nat) : Store κ ν :=
  match s.pending[i]? with
  | some w => { server := Function.update s.server w.1 w.2
                pending := s.pending.eraseIdx i }
  | none => s

/-- The server rejects the `i`-th pending write and the client drops it. -/
def Store.revert (s : Store κ ν) (i : Nat) : Store κ ν :=
  { s with pending := s.pending.eraseIdx i }

/-- The client is started again, and what was unsettled is lost. -/
def Store.restart (s : Store κ ν) : Store κ ν :=
  { s with pending := [] }

/-! ## Overlays -/

@[simp] theorem overlay_nil (k : κ) (v : ν) : overlay [] k v = v := rfl

@[simp] theorem overlay_cons (w : κ × ν) (ws : List (κ × ν)) (k : κ) (v : ν) :
    overlay (w :: ws) k v = overlay ws k (if w.1 = k then w.2 else v) := rfl

theorem overlay_append (ws us : List (κ × ν)) (k : κ) (v : ν) :
    overlay (ws ++ us) k v = overlay us k (overlay ws k v) := by
  simp [overlay, List.foldl_append]

/-- An overlay with no write to the key shows what is below it. -/
theorem overlay_of_ne (ws : List (κ × ν)) (k : κ) (v : ν)
    (h : ∀ w ∈ ws, w.1 ≠ k) : overlay ws k v = v := by
  induction ws with
  | nil => rfl
  | cons w ws ih =>
    rw [overlay_cons, if_neg (h w (by simp))]
    exact ih (fun u hu => h u (by simp [hu]))

/-- Taking out a write to another key changes nothing at this one. -/
theorem overlay_eraseIdx_of_ne (ws : List (κ × ν)) (i : Nat) (k : κ) (v : ν)
    (h : ∀ w, ws[i]? = some w → w.1 ≠ k) :
    overlay (ws.eraseIdx i) k v = overlay ws k v := by
  induction ws generalizing i v with
  | nil => rfl
  | cons w ws ih =>
    cases i with
    | zero => simp [if_neg (h w (by simp))]
    | succ i => simpa using ih i _ (fun u hu => h u (by simpa using hu))

/-- Moving a write below all the others is invisible when none of the
earlier ones goes to its key. -/
theorem overlay_eraseIdx_below (ws : List (κ × ν)) (i : Nat) (w : κ × ν) (v : ν)
    (hi : ws[i]? = some w) (hfirst : ∀ u ∈ ws.take i, u.1 ≠ w.1) :
    overlay (ws.eraseIdx i) w.1 w.2 = overlay ws w.1 v := by
  induction ws generalizing i v with
  | nil => simp at hi
  | cons u ws ih =>
    cases i with
    | zero =>
      obtain rfl : u = w := by simpa using hi
      simp
    | succ i =>
      have hu : u.1 ≠ w.1 := hfirst u (by simp)
      simp only [List.eraseIdx_cons_succ, overlay_cons, if_neg hu]
      exact ih i _ (by simpa using hi)
        (fun x hx => hfirst x (by simp [List.take_succ_cons, hx]))

/-! ## What the client reads -/

/-- A fresh write is read back, and no other key notices it. -/
theorem Store.view_write (s : Store κ ν) (k k' : κ) (v : ν) :
    (s.write k v).view k' = if k = k' then v else s.view k' := by
  simp [Store.view, Store.write, overlay_append]

/-- With no pending write to the key the client reads the server. -/
theorem Store.view_of_ne {s : Store κ ν} {k : κ}
    (h : ∀ w ∈ s.pending, w.1 ≠ k) : s.view k = s.server k :=
  overlay_of_ne s.pending k (s.server k) h

/-- Acknowledging a write that no earlier pending write competes with is
invisible at every key. -/
theorem Store.view_acknowledge (s : Store κ ν) (i : Nat) (k : κ)
    (hfirst : ∀ w, s.pending[i]? = some w → ∀ u ∈ s.pending.take i, u.1 ≠ w.1) :
    (s.acknowledge i).view k = s.view k := by
  unfold Store.acknowledge
  cases hi : s.pending[i]? with
  | none => rfl
  | some w =>
    simp only [Store.view]
    by_cases hk : w.1 = k
    · subst hk
      simp only [Function.update_self]
      exact overlay_eraseIdx_below s.pending i w _ hi (hfirst w hi)
    · simp only [Function.update_of_ne (Ne.symm hk)]
      refine overlay_eraseIdx_of_ne s.pending i k _ ?_
      intro u hu
      obtain rfl : w = u := by simpa [hi] using hu
      exact hk

/-- A client that is started again reads the server. -/
theorem Store.view_restart (s : Store κ ν) (k : κ) : s.restart.view k = s.server k := rfl

/-! ## What is read from the values -/

section Shows

variable {ι ω : Type} [DecidableEq ι]

/-- The store `u` is what `φ` reads from the values of `s`, at the keys
that `g` names. -/
structure Store.Shows (g : ι → κ) (φ : ν → ω) (s : Store κ ν) (u : Store ι ω) : Prop where
  server : ∀ i, φ (s.server (g i)) = u.server i
  pending : s.pending.map (fun w => (w.1, φ w.2)) = u.pending.map fun w => (g w.1, w.2)

theorem overlay_map_values (φ : ν → ω) (ws : List (κ × ν)) (k : κ) (v : ν) :
    overlay (ws.map fun w => (w.1, φ w.2)) k (φ v) = φ (overlay ws k v) := by
  induction ws generalizing v with
  | nil => rfl
  | cons w ws ih =>
    rw [List.map_cons, overlay_cons, overlay_cons, ← ih, apply_ite φ]

theorem overlay_map_keys {g : ι → κ} (hg : Function.Injective g) (us : List (ι × ω)) (i : ι)
    (v : ω) : overlay (us.map fun u => (g u.1, u.2)) (g i) v = overlay us i v := by
  induction us generalizing v with
  | nil => rfl
  | cons u us ih => simp only [List.map_cons, overlay_cons, hg.eq_iff, ih]

variable {g : ι → κ} {φ : ν → ω} {s : Store κ ν} {u : Store ι ω}

theorem Store.Shows.view (h : Store.Shows g φ s u) (hg : Function.Injective g) (i : ι) :
    φ (s.view (g i)) = u.view i := by
  rw [Store.view, Store.view, ← overlay_map_values φ, h.pending, overlay_map_keys hg, h.server]

omit [DecidableEq κ] [DecidableEq ι] in
theorem Store.Shows.write (h : Store.Shows g φ s u) (i : ι) (v : ν) :
    Store.Shows g φ (s.write (g i) v) (u.write i (φ v)) where
  server := h.server
  pending := by simp [Store.write, h.pending]

omit [DecidableEq κ] [DecidableEq ι] in
theorem Store.Shows.revert (h : Store.Shows g φ s u) (n : Nat) :
    Store.Shows g φ (s.revert n) (u.revert n) where
  server := h.server
  pending := by
    rw [Store.revert, Store.revert, ← List.eraseIdx_map, h.pending, List.eraseIdx_map]

theorem Store.Shows.acknowledge (h : Store.Shows g φ s u) (hg : Function.Injective g) (n : Nat) :
    Store.Shows g φ (s.acknowledge n) (u.acknowledge n) := by
  have hentry : (s.pending[n]?).map (fun w => (w.1, φ w.2)) =
      (u.pending[n]?).map fun w => (g w.1, w.2) := by
    rw [← List.getElem?_map, h.pending, List.getElem?_map]
  rw [Store.acknowledge, Store.acknowledge]
  cases hs : s.pending[n]? with
  | none =>
    cases hu : u.pending[n]? with
    | none => exact h
    | some w => simp [hs, hu] at hentry
  | some w =>
    cases hu : u.pending[n]? with
    | none => simp [hs, hu] at hentry
    | some w' =>
      obtain ⟨hkey, hvalue⟩ : w.1 = g w'.1 ∧ φ w.2 = w'.2 := by simpa [hs, hu] using hentry
      refine ⟨fun i => ?_, (h.revert n).pending⟩
      dsimp only
      by_cases hi : i = w'.1
      · subst hi
        rw [hkey, Function.update_self, Function.update_self, hvalue]
      · rw [hkey, Function.update_of_ne (fun heq => hi (hg heq)), Function.update_of_ne hi, h.server]

end Shows

end BetweenUS.Storage
