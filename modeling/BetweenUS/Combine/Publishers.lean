/-
BetweenUS.Combine.Publishers — the three pieces of Combine a view model's
streams are made of, as plain data.

* `Latest₂` and `Latest₃` — the memory of a `combineLatest` of two and of
  three inputs. An input that emits overwrites its slot; the operator
  emits the tuple of slots, and emits nothing until every slot is filled.
* `send` — a `PassthroughSubject` and its subscribers. A value reaches
  the subscribers attached WHEN IT IS SENT and is not replayed to the
  ones that attach later, so a subscriber carries whether it is attached.

Nothing here knows what the streams are used for.
-/
import Mathlib.Data.List.Basic

namespace BetweenUS.Combine

/-! ## combineLatest -/

/-- What a `combineLatest` of two inputs remembers. -/
structure Latest₂ (α β : Type) where
  first : Option α
  second : Option β
  deriving DecidableEq, Repr

/-- Nothing has been emitted by any input. -/
def Latest₂.empty {α β : Type} : Latest₂ α β := ⟨none, none⟩

/-- The pair emitted downstream, once both inputs have emitted. -/
def Latest₂.output {α β : Type} : Latest₂ α β → Option (α × β)
  | ⟨some a, some b⟩ => some (a, b)
  | _ => none

/-- What a `combineLatest` of three inputs remembers. -/
structure Latest₃ (α β γ : Type) where
  first : Option α
  second : Option β
  third : Option γ
  deriving DecidableEq, Repr

/-- Nothing has been emitted by any input. -/
def Latest₃.empty {α β γ : Type} : Latest₃ α β γ := ⟨none, none, none⟩

/-- The triple emitted downstream, once all inputs have emitted. -/
def Latest₃.output {α β γ : Type} : Latest₃ α β γ → Option (α × β × γ)
  | ⟨some a, some b, some c⟩ => some (a, b, c)
  | _ => none

@[simp] theorem Latest₂.output_full {α β : Type} (a : α) (b : β) :
    (⟨some a, some b⟩ : Latest₂ α β).output = some (a, b) := rfl

@[simp] theorem Latest₃.output_full {α β γ : Type} (a : α) (b : β) (c : γ) :
    (⟨some a, some b, some c⟩ : Latest₃ α β γ).output = some (a, b, c) := rfl

/-! ## PassthroughSubject -/

variable {α σ : Type}

/-- Deliver `v` to the attached subscribers of a list. -/
def send (attached : σ → Bool) (receive : σ → α → σ) (v : α)
    (subscribers : List σ) : List σ :=
  subscribers.map fun s => if attached s then receive s v else s

/-- When every subscriber is attached, the value reaches every one. -/
theorem send_of_attached {attached : σ → Bool} (receive : σ → α → σ) (v : α)
    {subscribers : List σ} (h : ∀ s ∈ subscribers, attached s = true) :
    send attached receive v subscribers = subscribers.map fun s => receive s v := by
  apply List.map_congr_left
  intro s hs
  rw [if_pos (h s hs)]

end BetweenUS.Combine
