/-
BetweenUS.Storage.PathWrites — pending writes to places of a tree.

An overlay says, for each path, which value was written there and is not
yet settled. Values are themselves trees: a write below a place that
already has one goes into that value (`update`), a write above it replaces
it. So an overlay is an antichain: no path with a value is below another
(`Antichain`).

`layer` lays a list of writes, oldest first. The two removal theorems say
when a write can be taken out of the overlay without laying the others
again:

* `layer_eq_of_shadowed` — a later write at or above its place hides it;
* `layer_eq_erase` — no other write touches its place, and erasing the
  place is enough.

Both need that no EARLIER write lies strictly above the place: such a write
has absorbed the removed one.

`below` is the overlay seen from one place, and `below_layer` computes it
from the writes themselves.
-/
import Mathlib.Data.List.Infix

namespace BetweenUS.Storage.PathWrites

variable {κ α : Type} [DecidableEq κ]

/-- The value written at each place. -/
abbrev Overlay (κ α : Type) := List κ → Option α

/-! ## Prefixes -/

omit [DecidableEq κ] in
theorem comparable {p q r : List κ} (hp : p <+: r) (hq : q <+: r) : p <+: q ∨ q <+: p :=
  List.prefix_or_prefix_of_prefix hp hq

omit [DecidableEq κ] in
theorem eq_of_prefixes {p q : List κ} (hpq : p <+: q) (hqp : q <+: p) : p = q :=
  hpq.eq_of_length (Nat.le_antisymm hpq.length_le hqp.length_le)

/-! ## The value above a place -/

/-- The first place on the way to `p` that has a value. -/
def rootMost (W : Overlay κ α) (p : List κ) : Option (List κ × α) :=
  p.inits.findSome? fun r => (W r).map fun v => (r, v)

/-- No value lies below another. -/
def Antichain (W : Overlay κ α) : Prop :=
  ∀ p q v v', W p = some v → W q = some v' → p <+: q → p = q

omit [DecidableEq κ] in
theorem rootMost_eq_none_iff {W : Overlay κ α} {p : List κ} :
    rootMost W p = none ↔ ∀ r, r <+: p → W r = none := by
  simp [rootMost, List.findSome?_eq_none_iff]

omit [DecidableEq κ] in
theorem rootMost_spec {W : Overlay κ α} {p r : List κ} {v : α}
    (h : rootMost W p = some (r, v)) : r <+: p ∧ W r = some v := by
  obtain ⟨r', hr', hv⟩ := List.exists_of_findSome?_eq_some h
  obtain ⟨v', hv', heq⟩ := Option.map_eq_some_iff.mp hv
  cases heq
  exact ⟨(List.mem_inits r p).mp hr', hv'⟩

omit [DecidableEq κ] in
theorem rootMost_congr {W W' : Overlay κ α} {p : List κ} (h : ∀ r, r <+: p → W r = W' r) :
    rootMost W p = rootMost W' p := by
  have hinits : ∀ r ∈ p.inits, W r = W' r := fun r hr => h r ((List.mem_inits r p).mp hr)
  unfold rootMost
  generalize p.inits = rs at hinits
  induction rs with
  | nil => rfl
  | cons r rs ih =>
    rw [List.findSome?_cons, List.findSome?_cons, hinits r List.mem_cons_self,
      ih fun r' hr' => hinits r' (List.mem_cons_of_mem r hr')]

omit [DecidableEq κ] in
/-- In an antichain there is at most one. -/
theorem Antichain.rootMost_eq {W : Overlay κ α} (h : Antichain W) {p r : List κ} {v : α}
    (hr : r <+: p) (hv : W r = some v) : rootMost W p = some (r, v) := by
  cases hroot : rootMost W p with
  | none => rw [rootMost_eq_none_iff.mp hroot r hr] at hv; cases hv
  | some rv =>
    obtain ⟨hr', hv'⟩ := rootMost_spec hroot
    have heq : rv.1 = r := by
      rcases comparable hr' hr with hle | hle
      · exact h _ _ _ _ hv' hv hle
      · exact (h _ _ _ _ hv hv' hle).symm
    rw [heq, hv] at hv'
    cases hv'
    rw [← heq]

/-! ## Writing and erasing -/

section Add

variable (update : α → List κ → α → α)

/-- Write `n` at `p`: into the value above it, or over everything below. -/
def add (W : Overlay κ α) (p : List κ) (n : α) : Overlay κ α := fun q =>
  match rootMost W p with
  | some (r, v) => if q = r then some (update v (p.drop r.length) n) else W q
  | none => if p <+: q then (if q = p then some n else none) else W q

/-- Forget every value at or below `p`. -/
def erase (W : Overlay κ α) (p : List κ) : Overlay κ α := fun q =>
  if p <+: q then none else W q

/-- Lay a list of writes over an overlay, oldest first. -/
def layer (W : Overlay κ α) (ws : List (List κ × α)) : Overlay κ α :=
  ws.foldl (fun W w => add update W w.1 w.2) W

variable {update}

theorem add_of_rootMost {W : Overlay κ α} {p r : List κ} {v : α} (h : rootMost W p = some (r, v))
    (n : α) (q : List κ) : add update W p n q =
      if q = r then some (update v (p.drop r.length) n) else W q := by
  simp [add, h]

theorem add_of_none {W : Overlay κ α} {p : List κ} (h : rootMost W p = none) (n : α)
    (q : List κ) : add update W p n q =
      if p <+: q then (if q = p then some n else none) else W q := by
  simp [add, h]

/-- A new value is at the written place or where one was. -/
theorem eq_or_of_add {W : Overlay κ α} {p q : List κ} {n v : α}
    (h : add update W p n q = some v) : q = p ∨ (W q).isSome = true := by
  cases hroot : rootMost W p with
  | none =>
    rw [add_of_none hroot] at h
    split at h
    · split at h
      · next heq => exact .inl heq
      · cases h
    · exact .inr (by simp [h])
  | some rv =>
    rw [add_of_rootMost hroot] at h
    split at h
    · next heq =>
      subst heq
      exact .inr (by simp [(rootMost_spec hroot).2])
    · exact .inr (by simp [h])

theorem Antichain.add {W : Overlay κ α} (h : Antichain W) (p : List κ) (n : α) :
    Antichain (add update W p n) := by
  intro q q' v v' hq hq' hle
  cases hroot : rootMost W p with
  | some rv =>
    obtain ⟨hr, hv⟩ := rootMost_spec hroot
    have hsome : ∀ x y, PathWrites.add update W p n x = some y → ∃ y', W x = some y' := by
      intro x y hx
      rw [add_of_rootMost hroot] at hx
      split at hx
      · next heq => exact ⟨rv.2, heq ▸ hv⟩
      · exact ⟨y, hx⟩
    obtain ⟨y, hy⟩ := hsome q v hq
    obtain ⟨y', hy'⟩ := hsome q' v' hq'
    exact h q q' y y' hy hy' hle
  | none =>
    have hnone := rootMost_eq_none_iff.mp hroot
    rw [add_of_none hroot] at hq hq'
    split at hq
    · next hpq =>
      split at hq
      · next heq =>
        subst heq
        rw [if_pos hle] at hq'
        split at hq'
        · next heq' => exact heq'.symm
        · cases hq'
      · cases hq
    · next hpq =>
      split at hq'
      · -- a value outside cannot lie above the written place
        next hpq' =>
        rcases comparable hle hpq' with hqp | hpq''
        · rw [hnone q hqp] at hq
          cases hq
        · exact (hpq hpq'').elim
      · exact h q q' v v' hq hq' hle

@[simp] theorem layer_cons (W : Overlay κ α) (w : List κ × α) (ws : List (List κ × α)) :
    layer update W (w :: ws) = layer update (PathWrites.add update W w.1 w.2) ws := rfl

theorem layer_append (W : Overlay κ α) (ws us : List (List κ × α)) :
    layer update W (ws ++ us) = layer update (layer update W ws) us := by
  simp [layer, List.foldl_append]

theorem Antichain.layer {W : Overlay κ α} (h : Antichain W) (ws : List (List κ × α)) :
    Antichain (layer update W ws) := by
  induction ws generalizing W with
  | nil => exact h
  | cons w ws ih => exact ih (h.add w.1 w.2)

/-! ## Taking a write out again

`p` is the place of the write that is taken out. -/

section Removal

variable {p : List κ} {W W' : Overlay κ α}

/-- No value lies strictly above `p`. -/
def Clear (p : List κ) (W : Overlay κ α) : Prop := ∀ r, r <+: p → r ≠ p → W r = none

/-- Two overlays that differ at or below `p` only. -/
def AgreeOff (p : List κ) (W W' : Overlay κ α) : Prop := ∀ q, ¬ p <+: q → W q = W' q

omit [DecidableEq κ] in
theorem Clear.of_agreeOff (h : Clear p W) (hoff : AgreeOff p W' W) : Clear p W' := by
  intro r hr hne
  rw [hoff r fun hp => hne (eq_of_prefixes hr hp)]
  exact h r hr hne

theorem Clear.add (h : Clear p W) {x : List κ} (hx : x <+: p → x = p) (n : α) :
    Clear p (add update W x n) := by
  intro r hr hne
  cases hadd : PathWrites.add update W x n r with
  | none => rfl
  | some v =>
    rcases eq_or_of_add hadd with rfl | hsome
    · exact (hne (hx hr)).elim
    · rw [h r hr hne] at hsome
      cases hsome

theorem Clear.layer (h : Clear p W) {ws : List (List κ × α)}
    (hws : ∀ w ∈ ws, w.1 <+: p → w.1 = p) : Clear p (layer update W ws) := by
  induction ws generalizing W with
  | nil => exact h
  | cons w ws ih =>
    exact ih (h.add (hws w List.mem_cons_self) w.2)
      fun w' hw' => hws w' (List.mem_cons_of_mem w hw')

/-- A write inside `p` is not seen outside. -/
theorem agreeOff_add (h : Clear p W) {x : List κ} (hx : p <+: x) (n : α) :
    AgreeOff p (add update W x n) W := by
  intro q hq
  cases hroot : rootMost W x with
  | none =>
    rw [add_of_none hroot, if_neg fun hxq => hq (hx.trans hxq)]
  | some rv =>
    obtain ⟨hr, hv⟩ := rootMost_spec hroot
    rw [add_of_rootMost hroot, if_neg]
    rintro rfl
    rcases comparable hr hx with hrp | hpr
    · by_cases hne : rv.1 = p
      · exact hq (hne ▸ List.prefix_rfl)
      · rw [h _ hrp hne] at hv
        cases hv
    · exact hq hpr

theorem agreeOff_layer (h : Clear p W) {ws : List (List κ × α)} (hws : ∀ w ∈ ws, p <+: w.1) :
    AgreeOff p (layer update W ws) W := by
  induction ws generalizing W with
  | nil => exact fun q _ => rfl
  | cons w ws ih =>
    have hadd : AgreeOff p (PathWrites.add update W w.1 w.2) W :=
      agreeOff_add h (hws w List.mem_cons_self) w.2
    have hrest := ih (h.of_agreeOff hadd) fun w' hw' => hws w' (List.mem_cons_of_mem w hw')
    exact fun q hq => (hrest q hq).trans (hadd q hq)

omit [DecidableEq κ] in
/-- What is above a place beside `p` lies outside `p`. -/
theorem AgreeOff.rootMost_eq (h : AgreeOff p W W') {x : List κ} (hx : ¬ p <+: x) :
    rootMost W x = rootMost W' x :=
  rootMost_congr fun r hr => h r fun hp => hx (hp.trans hr)

/-- A write keeps two overlays the same outside `p`. -/
theorem AgreeOff.add (h : AgreeOff p W W') (hclear : Clear p W) (x : List κ) (n : α) :
    AgreeOff p (add update W x n) (add update W' x n) := by
  by_cases hpx : p <+: x
  · have hclear' : Clear p W' := hclear.of_agreeOff fun q hq => (h q hq).symm
    intro q hq
    rw [agreeOff_add hclear hpx n q hq, agreeOff_add hclear' hpx n q hq, h q hq]
  · intro q hq
    have hroot := h.rootMost_eq hpx
    simp only [PathWrites.add, hroot, h q hq]

theorem AgreeOff.layer (h : AgreeOff p W W') (hclear : Clear p W) {ws : List (List κ × α)}
    (hws : ∀ w ∈ ws, w.1 <+: p → w.1 = p) :
    AgreeOff p (layer update W ws) (layer update W' ws) := by
  induction ws generalizing W W' with
  | nil => exact h
  | cons w ws ih =>
    have hw := hws w List.mem_cons_self
    exact ih (h.add hclear w.1 w.2) (hclear.add hw w.2)
      fun w' hw' => hws w' (List.mem_cons_of_mem w hw')

/-- A write at or above `p` hides how the overlays differ. -/
theorem AgreeOff.add_eq (h : AgreeOff p W W') (hclear : Clear p W) (hW : Antichain W)
    (hW' : Antichain W') (hupdate : ∀ v n, update v [] n = n) {x : List κ} (hx : x <+: p) (n : α) :
    PathWrites.add update W x n = PathWrites.add update W' x n := by
  have hover : ∀ V : Overlay κ α, Antichain V → Clear p V → ∀ q,
      PathWrites.add update V x n q =
        if x <+: q then (if q = x then some n else none) else V q := by
    intro V hV hVclear q
    cases hroot : rootMost V x with
    | none => exact add_of_none hroot n q
    | some rv =>
      -- the only value on the way is at `p`, and then `x` is `p`
      obtain ⟨hr, hv⟩ := rootMost_spec hroot
      have hrp : rv.1 = p := by
        by_contra hne
        rw [hVclear _ (hr.trans hx) hne] at hv
        cases hv
      have hxp : x = p := eq_of_prefixes hx (hrp ▸ hr)
      subst hxp
      rw [add_of_rootMost hroot, hrp, List.drop_length, hupdate]
      split
      · next heq => rw [heq, if_pos List.prefix_rfl]
      · next hne =>
        split
        · next hxq =>
          cases hq : V q with
          | none => rfl
          | some v => exact (hne (hV _ _ _ _ (hrp ▸ hv) hq hxq).symm).elim
        · rfl
  funext q
  rw [hover W hW hclear, hover W' hW' (hclear.of_agreeOff fun q hq => (h q hq).symm)]
  split
  · rfl
  · next hxq => exact h q fun hp => hxq (hx.trans hp)

/-- A write need not be taken out where a later write hides it. -/
theorem layer_eq_of_shadowed (hupdate : ∀ v n, update v [] n = n) (hW : Antichain W)
    (hclear : Clear p W) {ws post : List (List κ × α)} (hws : ∀ w ∈ ws, p <+: w.1)
    (hpost : ∃ w ∈ post, w.1 <+: p) :
    layer update (layer update W ws) post = layer update W post := by
  have hoff : AgreeOff p (layer update W ws) W := agreeOff_layer hclear hws
  have hW' : Antichain (layer update W ws) := hW.layer ws
  have hclear' := hclear.of_agreeOff hoff
  generalize layer update W ws = W' at *
  clear hws
  -- up to the first write at or above `p` the overlays agree off `p`
  induction post generalizing W W' with
  | nil => simp at hpost
  | cons w post ih =>
    by_cases hwp : w.1 <+: p
    · rw [layer_cons, layer_cons, hoff.add_eq hclear' hW' hW hupdate hwp]
    · have hne : w.1 <+: p → w.1 = p := fun h => (hwp h).elim
      refine ih (hW.add w.1 w.2) (hclear.add hne w.2) ?_ _ (hoff.add hclear' w.1 w.2)
        (hW'.add w.1 w.2) (hclear'.add hne w.2)
      obtain ⟨w', hw', hle⟩ := hpost
      rcases List.mem_cons.mp hw' with rfl | hw'
      · exact (hwp hle).elim
      · exact ⟨w', hw', hle⟩

/-- Values lie only where something was written. -/
theorem exists_of_layer {ws : List (List κ × α)} {q : List κ} {v : α}
    (h : layer update W ws q = some v) : (W q).isSome = true ∨ ∃ w ∈ ws, w.1 = q := by
  induction ws generalizing W with
  | nil => exact .inl (by simp [show W q = some v from h])
  | cons w ws ih =>
    rcases ih h with hsome | ⟨w', hw', heq⟩
    · obtain ⟨v', hv'⟩ := Option.isSome_iff_exists.mp hsome
      rcases eq_or_of_add hv' with rfl | hsome
      · exact .inr ⟨w, List.mem_cons_self, rfl⟩
      · exact .inl hsome
    · exact .inr ⟨w', List.mem_cons_of_mem w hw', heq⟩

theorem foldl_erase (rs : List (List κ)) (V : Overlay κ α) (q : List κ) :
    rs.foldl erase V q = if ∃ r ∈ rs, r <+: q then none else V q := by
  induction rs generalizing V with
  | nil => simp
  | cons r rs ih =>
    rw [List.foldl_cons, ih, erase]
    by_cases hr : r <+: q
    · simp [hr]
    · simp [hr, -List.mem_cons, List.exists_mem_cons_iff]

/-- Erasing its places takes a write out where no other write touches
`p`. -/
theorem layer_eq_erase (hclear : Clear p W) (hinside : ∀ q, p <+: q → W q = none)
    {ws post : List (List κ × α)} (hws : ∀ w ∈ ws, p <+: w.1)
    (hpost : ∀ w ∈ post, ¬ w.1 <+: p ∧ ¬ p <+: w.1) :
    (ws.map Prod.fst).foldl erase (layer update (layer update W ws) post) =
      layer update W post := by
  have hoff : AgreeOff p (layer update (layer update W ws) post) (layer update W post) :=
    (agreeOff_layer hclear hws).layer (hclear.of_agreeOff (agreeOff_layer hclear hws))
      fun w hw hle => ((hpost w hw).1 hle).elim
  have hat : ∀ q v, layer update (layer update W ws) post q = some v → p <+: q →
      ∃ w ∈ ws, w.1 = q := by
    intro q v hv hpq
    rcases exists_of_layer hv with hsome | ⟨w, hw, rfl⟩
    · obtain ⟨v', hv'⟩ := Option.isSome_iff_exists.mp hsome
      rcases exists_of_layer hv' with hsome | hw
      · rw [hinside q hpq] at hsome
        cases hsome
      · exact hw
    · exact ((hpost w hw).2 hpq).elim
  have hnone : ∀ q, p <+: q → layer update W post q = none := by
    intro q hpq
    cases hq : layer update W post q with
    | none => rfl
    | some v =>
      rcases exists_of_layer hq with hsome | ⟨w, hw, rfl⟩
      · rw [hinside q hpq] at hsome
        cases hsome
      · exact ((hpost w hw).2 hpq).elim
  funext q
  rw [foldl_erase]
  split
  · next hexists =>
    obtain ⟨r, hr, hrq⟩ := hexists
    obtain ⟨w, hw, rfl⟩ := List.mem_map.mp hr
    exact (hnone q ((hws w hw).trans hrq)).symm
  · next hexists =>
    by_cases hpq : p <+: q
    · rw [hnone q hpq]
      cases hq : layer update (layer update W ws) post q with
      | none => rfl
      | some v =>
        obtain ⟨w, hw, rfl⟩ := hat q v hq hpq
        exact (hexists ⟨w.1, List.mem_map_of_mem hw, List.prefix_rfl⟩).elim
    · exact hoff q hpq

end Removal

end Add

/-! ## The overlay from one place -/

/-- Values that are read and written along paths: `Ok` says which values,
`Fine` along which paths. -/
structure Places (get : α → List κ → α) (update : α → List κ → α → α) (Ok : α → Prop)
    (Fine : List κ → Prop) : Prop where
  fine_append : ∀ p q, Fine (p ++ q) → Fine p ∧ Fine q
  ok_get : ∀ v p, Ok v → Fine p → Ok (get v p)
  ok_update : ∀ v p n, Ok v → Ok n → Fine p → Ok (update v p n)
  get_nil : ∀ v, get v [] = v
  get_append : ∀ v p q, Fine (p ++ q) → get v (p ++ q) = get (get v p) q
  update_nil : ∀ v n, update v [] n = n
  get_above : ∀ v n p q, Ok v → Ok n → Fine (p ++ q) →
    get (update v (p ++ q) n) p = update (get v p) q n
  get_below : ∀ v n p q, Ok v → Ok n → Fine (p ++ q) → get (update v p n) (p ++ q) = get n q
  get_beside : ∀ v n p q, Ok v → Ok n → Fine p → Fine q → ¬ p <+: q → ¬ q <+: p →
    get (update v p n) q = get v q

section Localise

variable {get : α → List κ → α} {update : α → List κ → α → α} {Ok : α → Prop}
  {Fine : List κ → Prop}

variable (get) in
/-- The overlay as it is seen from `r`: a value above `r` is read at `r`. -/
def below (W : Overlay κ α) (r : List κ) : Overlay κ α := fun q =>
  match rootMost W r with
  | some (s, v) => if q = [] then some (get v (r.drop s.length)) else none
  | none => W (r ++ q)

variable (get) in
/-- What a write does to the value at `r`, if anything. -/
def localise (r : List κ) (w : List κ × α) : Option (List κ × α) :=
  if r <+: w.1 then some (w.1.drop r.length, w.2)
  else if w.1 <+: r then some ([], get w.2 (r.drop w.1.length))
  else none

theorem localise_inside (r q : List κ) (n : α) :
    localise get r (r ++ q, n) = some (q, n) := by
  simp [localise]

theorem localise_above {p q : List κ} (n : α) (hq : q ≠ []) :
    localise get (p ++ q) (p, n) = some ([], get n q) := by
  have hnot : ¬ p ++ q <+: p := by
    intro hle
    have heq := eq_of_prefixes hle (List.prefix_append p q)
    simp [hq] at heq
  simp [localise, hnot]

theorem localise_beside {p r : List κ} (n : α) (hpr : ¬ p <+: r) (hrp : ¬ r <+: p) :
    localise get r (p, n) = none := by
  simp [localise, hpr, hrp]

/-- Where a write can lie, as seen from `r`. -/
theorem place_cases (p r : List κ) :
    (∃ q, p = r ++ q) ∨ (∃ q, q ≠ [] ∧ r = p ++ q) ∨ (¬ p <+: r ∧ ¬ r <+: p) := by
  by_cases hrp : r <+: p
  · obtain ⟨q, hq⟩ := hrp
    exact .inl ⟨q, hq.symm⟩
  · by_cases hpr : p <+: r
    · obtain ⟨q, rfl⟩ := hpr
      refine .inr (.inl ⟨q, ?_, rfl⟩)
      rintro rfl
      simp at hrp
    · exact .inr (.inr ⟨hpr, hrp⟩)

variable (update) in
/-- The writes of a list, one after the other. -/
def apply (v : α) (ws : List (List κ × α)) : α := ws.foldl (fun v w => update v w.1 w.2) v

omit [DecidableEq κ] in
@[simp] theorem apply_cons (v : α) (w : List κ × α) (ws : List (List κ × α)) :
    apply update v (w :: ws) = apply update (update v w.1 w.2) ws := rfl

omit [DecidableEq κ] in
theorem apply_append (v : α) (ws us : List (List κ × α)) :
    apply update v (ws ++ us) = apply update (apply update v ws) us := by
  simp [apply, List.foldl_append]

/-- A list of writes can be read at one place: only the writes above and
below it matter. -/
theorem Places.get_apply (h : Places get update Ok Fine) {v : α} (hv : Ok v) {r : List κ}
    (hr : Fine r) {ws : List (List κ × α)} (hws : ∀ w ∈ ws, Fine w.1 ∧ Ok w.2) :
    get (apply update v ws) r = apply update (get v r) (ws.filterMap (localise get r)) := by
  induction ws generalizing v with
  | nil => rfl
  | cons w ws ih =>
    obtain ⟨p, n⟩ := w
    obtain ⟨hp, hn⟩ := hws (p, n) List.mem_cons_self
    rw [apply_cons, ih (h.ok_update v p n hv hn hp) fun w' hw' =>
      hws w' (List.mem_cons_of_mem _ hw'), List.filterMap_cons]
    rcases place_cases p r with ⟨q, rfl⟩ | ⟨q, hq, rfl⟩ | ⟨hpr, hrp⟩
    · rw [localise_inside, h.get_above v n r q hv hn hp]
      rfl
    · rw [localise_above n hq, h.get_below v n p q hv hn hr, apply_cons, h.update_nil]
    · rw [localise_beside n hpr hrp, h.get_beside v n p r hv hn hp hr hpr hrp]

omit [DecidableEq κ] in
theorem below_of_rootMost {W : Overlay κ α} {r s : List κ} {v : α}
    (h : rootMost W r = some (s, v)) (q : List κ) :
    below get W r q = if q = [] then some (get v (r.drop s.length)) else none := by
  simp [below, h]

omit [DecidableEq κ] in
theorem below_of_none {W : Overlay κ α} {r : List κ} (h : rootMost W r = none) (q : List κ) :
    below get W r q = W (r ++ q) := by
  simp [below, h]

omit [DecidableEq κ] in
theorem below_empty (r : List κ) :
    below get (fun _ => none : Overlay κ α) r = fun _ => none := by
  funext q
  rw [below_of_none (rootMost_eq_none_iff.mpr fun _ _ => rfl)]

omit [DecidableEq κ] in
theorem below_congr {W W' : Overlay κ α} {r : List κ}
    (h : ∀ x, x <+: r ∨ r <+: x → W x = W' x) : below get W r = below get W' r := by
  have hroot : rootMost W r = rootMost W' r := rootMost_congr fun x hx => h x (.inl hx)
  funext q
  simp only [below, hroot, h (r ++ q) (.inr (List.prefix_append r q))]

omit [DecidableEq κ] in
theorem Antichain.below {W : Overlay κ α} (h : Antichain W) (r : List κ) :
    Antichain (below get W r) := by
  intro p q v v' hp hq hle
  cases hroot : rootMost W r with
  | none =>
    rw [below_of_none hroot] at hp hq
    exact List.append_cancel_left (h _ _ _ _ hp hq ((List.prefix_append_right_inj r).mpr hle))
  | some sv =>
    rw [below_of_rootMost hroot] at hp hq
    split at hp
    · next hnil =>
      split at hq
      · next hnil' => rw [hnil, hnil']
      · cases hq
    · cases hp

omit [DecidableEq κ] in
/-- Seen from a place below a place. -/
theorem Places.below_below (h : Places get update Ok Fine) {W : Overlay κ α} (hW : Antichain W)
    {r s : List κ} (hfine : Fine (r ++ s)) :
    PathWrites.below get (PathWrites.below get W r) s = PathWrites.below get W (r ++ s) := by
  funext q
  cases hroot : rootMost W r with
  | some tv =>
    obtain ⟨t, v⟩ := tv
    obtain ⟨⟨u, rfl⟩, hv⟩ := rootMost_spec hroot
    have hlong : rootMost W (t ++ u ++ s) = some (t, v) :=
      hW.rootMost_eq (by rw [List.append_assoc]; exact List.prefix_append t (u ++ s)) hv
    have hlocal : rootMost (PathWrites.below get W (t ++ u)) s = some ([], get v u) :=
      (hW.below _).rootMost_eq List.nil_prefix (by simp [below_of_rootMost hroot])
    rw [List.append_assoc] at hfine
    rw [below_of_rootMost hlocal, below_of_rootMost hlong, List.length_nil, List.drop_zero,
      List.append_assoc, List.drop_left, h.get_append v u s (h.fine_append t _ hfine).2]
  | none =>
    have hbelow : PathWrites.below get W r = fun x => W (r ++ x) :=
      funext fun x => below_of_none hroot x
    rw [hbelow]
    cases hlocal : rootMost (fun x => W (r ++ x)) s with
    | some tv =>
      obtain ⟨t, v⟩ := tv
      obtain ⟨⟨u, rfl⟩, hv⟩ := rootMost_spec hlocal
      have hlong : rootMost W (r ++ (t ++ u)) = some (r ++ t, v) :=
        hW.rootMost_eq (by rw [← List.append_assoc]; exact List.prefix_append (r ++ t) u) hv
      rw [below_of_rootMost hlocal, below_of_rootMost hlong, ← List.append_assoc, List.drop_left,
        List.drop_left]
    | none =>
      have hlong : rootMost W (r ++ s) = none := by
        rw [rootMost_eq_none_iff] at hroot hlocal ⊢
        intro x hx
        rcases comparable hx (List.prefix_append r s) with hxr | ⟨u, rfl⟩
        · exact hroot x hxr
        · exact hlocal u ((List.prefix_append_right_inj r).mp hx)
      rw [below_of_none hlocal, below_of_none hlong, List.append_assoc]

/-- A write at the root replaces the overlay. -/
theorem Antichain.add_nil {W : Overlay κ α} (h : Antichain W)
    (hupdate : ∀ v n, update v [] n = n) (n : α) (q : List κ) :
    PathWrites.add update W [] n q = if q = [] then some n else none := by
  cases hroot : rootMost W [] with
  | none => simp [add_of_none hroot]
  | some sv =>
    obtain ⟨hs, hv⟩ := rootMost_spec hroot
    have hnil : sv.1 = [] := List.prefix_nil.mp hs
    rw [hnil] at hv
    rw [add_of_rootMost hroot, hnil, List.drop_nil, hupdate]
    split
    · rfl
    · next hne =>
      cases hq : W q with
      | none => rfl
      | some v => exact (hne (h _ _ _ _ hv hq List.nil_prefix).symm).elim

theorem Places.ok_add (h : Places get update Ok Fine) {W : Overlay κ α}
    (hOk : ∀ q v, W q = some v → Ok v) {p : List κ} (hp : Fine p) {n : α} (hn : Ok n)
    (q : List κ) (v : α) (hv : PathWrites.add update W p n q = some v) : Ok v := by
  cases hroot : rootMost W p with
  | none =>
    rw [add_of_none hroot] at hv
    split at hv
    · split at hv
      · cases hv
        exact hn
      · cases hv
    · exact hOk q v hv
  | some su =>
    obtain ⟨s, u⟩ := su
    obtain ⟨⟨t, rfl⟩, hu⟩ := rootMost_spec hroot
    rw [add_of_rootMost hroot, List.drop_left] at hv
    split at hv
    · cases hv
      exact h.ok_update u t n (hOk s u hu) hn (h.fine_append s t hp).2
    · exact hOk q v hv

section Below

variable {W : Overlay κ α} {r p : List κ} {n : α} (h : Places get update Ok Fine)
  (hW : Antichain W) (hOk : ∀ q v, W q = some v → Ok v) (hn : Ok n)

include h hW hOk hn

/-- A write at or below `r`, seen from there. -/
theorem Places.below_add_inside {q : List κ} (hfine : Fine (r ++ q)) :
    below get (add update W (r ++ q) n) r = add update (below get W r) q n := by
  funext x
  cases hroot : rootMost W (r ++ q) with
  | some sv =>
    obtain ⟨s, v⟩ := sv
    obtain ⟨hs, hv⟩ := rootMost_spec hroot
    have hadd : ∀ x, PathWrites.add update W (r ++ q) n x =
        if x = s then some (update v ((r ++ q).drop s.length) n) else W x :=
      add_of_rootMost hroot n
    have hanti : Antichain (PathWrites.add update W (r ++ q) n) := hW.add _ n
    by_cases hsr : s <+: r
    · -- the write goes into the value above `r`
      obtain ⟨t, rfl⟩ := hsr
      have hnew := hanti.rootMost_eq (List.prefix_append s t)
        ((hadd s).trans (if_pos rfl))
      have hold := hW.rootMost_eq (List.prefix_append s t) hv
      have hlocal : rootMost (below get W (s ++ t)) q = some ([], get v t) :=
        (hW.below _).rootMost_eq List.nil_prefix (by simp [below_of_rootMost hold])
      rw [below_of_rootMost hnew, add_of_rootMost hlocal, below_of_rootMost hold]
      rw [List.append_assoc] at hfine ⊢
      rw [List.drop_left, List.drop_left, List.length_nil, List.drop_zero,
        h.get_above v n t q (hOk s v hv) hn (h.fine_append s _ hfine).2]
      split <;> rfl
    · -- the write goes into a value below `r`
      have hrs : r <+: s := (comparable hs (List.prefix_append r q)).resolve_left hsr
      obtain ⟨t, rfl⟩ := hrs
      have hold : rootMost W r = none := by
        rw [rootMost_eq_none_iff]
        intro y hy
        cases hyv : W y with
        | none => rfl
        | some v' =>
          have hys := hW _ _ _ _ hyv hv (hy.trans (List.prefix_append r t))
          exact (hsr (hys ▸ hy)).elim
      have hnew : rootMost (PathWrites.add update W (r ++ q) n) r = none := by
        rw [rootMost_eq_none_iff] at hold ⊢
        intro y hy
        rw [hadd, if_neg, hold y hy]
        rintro rfl
        exact hsr hy
      have hlocal : rootMost (below get W r) q = some (t, v) :=
        (hW.below r).rootMost_eq ((List.prefix_append_right_inj r).mp hs)
          (by rw [below_of_none hold, hv])
      have hdrop : (r ++ q).drop (r ++ t).length = q.drop t.length := by
        rw [List.length_append, ← List.drop_drop, List.drop_left]
      rw [below_of_none hnew, hadd, add_of_rootMost hlocal, below_of_none hold, hdrop]
      simp only [List.append_cancel_left_eq]
  | none =>
    have hnone := rootMost_eq_none_iff.mp hroot
    have hold : rootMost W r = none :=
      rootMost_eq_none_iff.mpr fun y hy => hnone y (hy.trans (List.prefix_append r q))
    have hlocal : rootMost (below get W r) q = none := by
      rw [rootMost_eq_none_iff]
      intro y hy
      rw [below_of_none hold]
      exact hnone _ ((List.prefix_append_right_inj r).mpr hy)
    rw [add_of_none hlocal, below_of_none hold]
    cases q with
    | nil =>
      have hnew : rootMost (PathWrites.add update W (r ++ []) n) r = some (r, n) := by
        refine (hW.add _ n).rootMost_eq List.prefix_rfl ?_
        rw [add_of_none hroot]
        simp
      rw [below_of_rootMost hnew, List.drop_length, h.get_nil, if_pos List.nil_prefix]
    | cons k q =>
      have hnew : rootMost (PathWrites.add update W (r ++ k :: q) n) r = none := by
        rw [rootMost_eq_none_iff] at hold ⊢
        intro y hy
        rw [add_of_none hroot, if_neg, hold y hy]
        intro hle
        have hlen := (hle.trans hy).length_le
        rw [List.length_append, List.length_cons] at hlen
        omega
      rw [below_of_none hnew, add_of_none hroot]
      simp [List.prefix_append_right_inj]

/-- A write above `r`, seen from there. -/
theorem Places.below_add_above {q : List κ} (hfine : Fine (p ++ q)) (x : List κ) :
    below get (add update W p n) (p ++ q) x = if x = [] then some (get n q) else none := by
  have hanti : Antichain (PathWrites.add update W p n) := hW.add _ n
  cases hroot : rootMost W p with
  | some sv =>
    obtain ⟨s, v⟩ := sv
    obtain ⟨⟨t, rfl⟩, hv⟩ := rootMost_spec hroot
    have hadd : PathWrites.add update W (s ++ t) n s = some (update v t n) := by
      rw [add_of_rootMost hroot, if_pos rfl, List.drop_left]
    rw [List.append_assoc] at hfine ⊢
    rw [below_of_rootMost (hanti.rootMost_eq (List.prefix_append s (t ++ q)) hadd),
      List.drop_left, h.get_below v n t q (hOk s v hv) hn (h.fine_append s _ hfine).2]
  | none =>
    have hadd : PathWrites.add update W p n p = some n := by
      simp [add_of_none hroot]
    rw [below_of_rootMost (hanti.rootMost_eq (List.prefix_append p q) hadd), List.drop_left]

/-- A write beside `r` is not seen from there. -/
theorem Places.below_add_beside (hp : Fine p) (hr : Fine r) (hpr : ¬ p <+: r) (hrp : ¬ r <+: p) :
    below get (add update W p n) r = below get W r := by
  cases hroot : rootMost W p with
  | some sv =>
    obtain ⟨s, v⟩ := sv
    obtain ⟨⟨t, rfl⟩, hv⟩ := rootMost_spec hroot
    have hadd : ∀ x, PathWrites.add update W (s ++ t) n x =
        if x = s then some (update v t n) else W x := by
      intro x
      rw [add_of_rootMost hroot, List.drop_left]
    by_cases hsr : s <+: r
    · -- both lie below one value
      obtain ⟨t', rfl⟩ := hsr
      have hnew := (hW.add (s ++ t) n).rootMost_eq (List.prefix_append s t')
        ((hadd s).trans (if_pos rfl))
      have hold := hW.rootMost_eq (List.prefix_append s t') hv
      funext x
      rw [below_of_rootMost hnew, below_of_rootMost hold, List.drop_left,
        h.get_beside v n t t' (hOk s v hv) hn (h.fine_append s t hp).2 (h.fine_append s t' hr).2
          (fun hle => hpr ((List.prefix_append_right_inj s).mpr hle))
          (fun hle => hrp ((List.prefix_append_right_inj s).mpr hle))]
    · refine below_congr fun x hx => ?_
      rw [hadd, if_neg]
      rintro rfl
      rcases hx with hx | hx
      · exact hsr hx
      · exact hrp (hx.trans (List.prefix_append x t))
  | none =>
    refine below_congr fun x hx => ?_
    rw [add_of_none hroot, if_neg]
    intro hpx
    rcases hx with hx | hx
    · exact hpr (hpx.trans hx)
    · exact (comparable hpx hx).elim hpr hrp

theorem Places.below_add (hp : Fine p) (hr : Fine r) :
    below get (add update W p n) r =
      match localise get r (p, n) with
      | none => below get W r
      | some (q, m) => add update (below get W r) q m := by
  rcases place_cases p r with ⟨q, rfl⟩ | ⟨q, hq, rfl⟩ | ⟨hpr, hrp⟩
  · rw [localise_inside]
    exact h.below_add_inside hW hOk hn hp
  · rw [localise_above n hq]
    funext x
    exact (h.below_add_above hW hOk hn hr x).trans
      ((hW.below _).add_nil h.update_nil _ x).symm
  · rw [localise_beside n hpr hrp]
    exact h.below_add_beside hW hOk hn hp hr hpr hrp

end Below

/-- The overlay seen from `r` is the overlay of the writes that matter
there. -/
theorem Places.below_layer (h : Places get update Ok Fine) {W : Overlay κ α} (hW : Antichain W)
    (hOk : ∀ q v, W q = some v → Ok v) {r : List κ} (hr : Fine r) {ws : List (List κ × α)}
    (hws : ∀ w ∈ ws, Fine w.1 ∧ Ok w.2) : below get (layer update W ws) r =
      layer update (below get W r) (ws.filterMap (localise get r)) := by
  induction ws generalizing W with
  | nil => rfl
  | cons w ws ih =>
    obtain ⟨p, n⟩ := w
    obtain ⟨hp, hn⟩ := hws (p, n) List.mem_cons_self
    rw [layer_cons, ih (hW.add p n) (h.ok_add hOk hp hn) fun w' hw' =>
      hws w' (List.mem_cons_of_mem _ hw'), h.below_add hW hOk hn hp hr, List.filterMap_cons]
    cases localise get r (p, n) with
    | none => rfl
    | some w => rfl

end Localise

end BetweenUS.Storage.PathWrites
