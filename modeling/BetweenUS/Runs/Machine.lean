/-
BetweenUS.Runs.Machine — finite runs of a state machine given by a total
step function, and the induction rules the development uses.

A run is a list of events folded through `step`. Two predicates describe
a whole run: `Throughout P`, every state of it (the first and the last
included) satisfies `P`, and `EachStep C`, every event of it meets `C` in
the state it is delivered in. Both recurse on the event list, so an
induction on a run is an induction on that list.

The rules:

* `throughout_of_invariant` — what every step preserves holds throughout,
  and what it says of a step holds at each (`eachStep_of_invariant`);
* `throughout_iff_eachStep` — if `C` is what one step needs to keep `P`,
  then `P` holds throughout a run EXACTLY when each of its steps meets
  `C`. The invariant `Q` is what the run needs to remember besides `P`;
* `forall_outputs` — a property of what one step emits is a property of
  everything a run emits, under an invariant and a step condition;
* `simulation_run` — a relation between the states of two machines that
  every event preserves relates their runs, also where the two take
  different events in step with each other (`simulation_run_forall₂`);
* `register_run` — a part of the state that an event either overwrites or
  leaves alone holds, after a run, what was written last.
-/
import Mathlib.Data.List.Forall2

namespace BetweenUS.Runs

variable {σ ε ο : Type}

/-! ## Runs -/

/-- The state a list of events leads to. -/
def run (step : σ → ε → σ) (s : σ) (es : List ε) : σ :=
  es.foldl step s

/-- Every state of the run satisfies `P`, the first and the last included. -/
def Throughout (step : σ → ε → σ) (P : σ → Prop) : σ → List ε → Prop
  | s, [] => P s
  | s, e :: es => P s ∧ Throughout step P (step s e) es

/-- Every event of the run meets `C` in the state it is delivered in. -/
def EachStep (step : σ → ε → σ) (C : σ → ε → Prop) : σ → List ε → Prop
  | _, [] => True
  | s, e :: es => C s e ∧ EachStep step C (step s e) es

instance EachStep.decidable (step : σ → ε → σ) (C : σ → ε → Prop)
    [∀ s e, Decidable (C s e)] : ∀ s es, Decidable (EachStep step C s es)
  | _, [] => isTrue trivial
  | s, e :: es =>
      have := EachStep.decidable step C (step s e) es
      inferInstanceAs (Decidable (C s e ∧ EachStep step C (step s e) es))

/-- What the steps of a run emit, in order. -/
def outputs (step : σ → ε → σ) (out : σ → ε → Option ο) : σ → List ε → List ο
  | _, [] => []
  | s, e :: es => (out s e).toList ++ outputs step out (step s e) es

variable {step : σ → ε → σ}

/-! ## Invariants -/

/-- An invariant that every event of a run preserves, and that gives `P`,
gives it throughout. -/
theorem throughout_of_invariant {I P : σ → Prop} (hIP : ∀ s, I s → P s) {es : List ε}
    (hstep : ∀ e ∈ es, ∀ s, I s → I (step s e)) {s : σ} (h : I s) :
    Throughout step P s es := by
  induction es generalizing s with
  | nil => exact hIP s h
  | cons e es ih =>
    have hnext : I (step s e) := hstep e List.mem_cons_self s h
    exact ⟨hIP s h, ih (fun e' he' => hstep e' (List.mem_cons_of_mem e he')) hnext⟩

/-- And what it gives of a step holds at each step. -/
theorem eachStep_of_invariant {I : σ → Prop} {C : σ → ε → Prop}
    (hstep : ∀ s e, I s → I (step s e)) (hC : ∀ s e, I s → C s e) {s : σ} (h : I s)
    (es : List ε) : EachStep step C s es := by
  induction es generalizing s with
  | nil => trivial
  | cons e es ih => exact ⟨hC s e h, ih (hstep s e h)⟩

/-- Steps that all meet `C` keep `P` throughout, with `Q` the memory of
the run. -/
theorem throughout_of_eachStep {P Q : σ → Prop} {C : σ → ε → Prop}
    (hQP : ∀ s, Q s → P s) (hkeep : ∀ s e, Q s → C s e → Q (step s e))
    {s : σ} (hs : Q s) {es : List ε} (hes : EachStep step C s es) :
    Throughout step P s es := by
  induction es generalizing s with
  | nil => exact hQP s hs
  | cons e es ih =>
    obtain ⟨hC, hrest⟩ := hes
    exact ⟨hQP s hs, ih (hkeep s e hs hC) hrest⟩

/-- And end in it. -/
theorem run_of_eachStep {Q : σ → Prop} {C : σ → ε → Prop}
    (hkeep : ∀ s e, Q s → C s e → Q (step s e)) {s : σ} (hs : Q s) {es : List ε}
    (hes : EachStep step C s es) : Q (run step s es) := by
  induction es generalizing s with
  | nil => exact hs
  | cons e es ih => exact ih (hkeep s e hs hes.1) hes.2

/-- What `C` gives in one step of the run it gives in each. -/
theorem eachStep_of_eachStep {Q : σ → Prop} {C C' : σ → ε → Prop}
    (hkeep : ∀ s e, Q s → C s e → Q (step s e)) (hC : ∀ s e, Q s → C s e → C' s e)
    {s : σ} (hs : Q s) {es : List ε} (hes : EachStep step C s es) : EachStep step C' s es := by
  induction es generalizing s with
  | nil => trivial
  | cons e es ih => exact ⟨hC s e hs hes.1, ih (hkeep s e hs hes.1) hes.2⟩

/-- The converse: a run that keeps `P` throughout has met `C` at each
step, if a step that ends in `P` needs it. -/
theorem eachStep_of_throughout {P Q : σ → Prop} {C : σ → ε → Prop}
    (hkeep : ∀ s e, Q s → C s e → Q (step s e))
    (hneed : ∀ s e, Q s → P (step s e) → C s e)
    {s : σ} (hs : Q s) {es : List ε} (hes : Throughout step P s es) :
    EachStep step C s es := by
  induction es generalizing s with
  | nil => trivial
  | cons e es ih =>
    obtain ⟨_, hrest⟩ := hes
    -- the first state of the rest of the run is where `C` shows itself
    have hP : P (step s e) := by
      cases es with
      | nil => exact hrest
      | cons _ _ => exact hrest.1
    have hC := hneed s e hs hP
    exact ⟨hC, ih (hkeep s e hs hC) hrest⟩

/-- `C` is what a step needs for `P`, with `Q` the memory of the run: a
run keeps `P` throughout exactly when each of its steps meets `C`. -/
theorem throughout_iff_eachStep {P Q : σ → Prop} {C : σ → ε → Prop}
    (hQP : ∀ s, Q s → P s)
    (hkeep : ∀ s e, Q s → C s e → Q (step s e))
    (hneed : ∀ s e, Q s → P (step s e) → C s e)
    {s : σ} (hs : Q s) (es : List ε) :
    Throughout step P s es ↔ EachStep step C s es :=
  ⟨eachStep_of_throughout hkeep hneed hs, throughout_of_eachStep hQP hkeep hs⟩

/-! ## Outputs -/

/-- What holds of every single output holds of all outputs of a run. -/
theorem forall_outputs {out : σ → ε → Option ο} {I : σ → Prop}
    {C : σ → ε → Prop} {R : ο → Prop}
    (hstep : ∀ s e, I s → C s e → I (step s e))
    (hout : ∀ s e o, I s → C s e → out s e = some o → R o)
    {s : σ} (h : I s) {es : List ε} (hes : EachStep step C s es) :
    ∀ o ∈ outputs step out s es, R o := by
  induction es generalizing s with
  | nil => intro o ho; simp [outputs] at ho
  | cons e es ih =>
    intro o ho
    simp only [outputs, List.mem_append, Option.mem_toList] at ho
    rcases ho with ho | ho
    · exact hout s e o h hes.1 ho
    · exact ih (hstep s e h hes.1) hes.2 o ho

/-! ## Simulation -/

/-- Two machines that take events in step with each other, and a relation
between their states that every such pair of events preserves. -/
theorem simulation_run_forall₂ {τ ε' : Type} {step' : τ → ε' → τ} {R : σ → τ → Prop}
    {E : ε → ε' → Prop} (hstep : ∀ s t e e', R s t → E e e' → R (step s e) (step' t e'))
    {s : σ} {t : τ} (h : R s t) {es : List ε} {es' : List ε'} (hes : List.Forall₂ E es es') :
    R (run step s es) (run step' t es') := by
  induction hes generalizing s t with
  | nil => exact h
  | @cons e e' _ _ he _ ih => exact ih (hstep s t e e' h he)

/-- Two machines that take the same events. -/
theorem simulation_run {τ : Type} {step' : τ → ε → τ} {R : σ → τ → Prop}
    (hstep : ∀ s t e, R s t → R (step s e) (step' t e)) {s : σ} {t : τ} (h : R s t)
    (es : List ε) : R (run step s es) (run step' t es) :=
  simulation_run_forall₂ (E := Eq) (fun s t e _ hR he => he ▸ hstep s t e hR) h
    (List.forall₂_same.mpr fun _ _ => rfl)

/-! ## Registers -/

/-- A register that each step overwrites or leaves alone. -/
theorem register_run {α : Type} {get : σ → α} {put : ε → Option α}
    (hstep : ∀ s e, get (step s e) = (put e).getD (get s)) (s : σ) (es : List ε) :
    get (run step s es) = (es.filterMap put).getLastD (get s) := by
  induction es generalizing s with
  | nil => rfl
  | cons e es ih =>
    have hrest : get (run step s (e :: es)) = (es.filterMap put).getLastD (get (step s e)) :=
      ih (step s e)
    rw [hrest, hstep, List.filterMap_cons]
    cases put e with
    | none => rfl
    | some a => rw [List.getLastD_cons, Option.getD_some]

end BetweenUS.Runs
