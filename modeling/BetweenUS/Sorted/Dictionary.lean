/-
BetweenUS.Sorted.Dictionary — dictionaries as association lists with
strictly ascending keys, over any comparator.

The three operations stop at the first key that is not below the one they
look for, as a linear search through a sorted array does. `Ascending`
makes that sound. Different keys may TIE in the comparator; then either of
them finds the entry of the other, and an insertion may replace the key
(`insert`) or keep it (`insertKeeping`). Lists that differ by such a choice
are `Alike`. Where no two keys tie a dictionary is CANONICAL: two ascending
lists with the same lookups are the same list (`Ascending.ext`), so an
equation between dictionaries can be proved key by key.

The `_append` lemmas say what an operation does to a list that is cut at
one of its entries. They are what a search tree needs, whose in-order
listing is its left subtree, the root and its right subtree.
-/
import Mathlib.Data.List.Sort

namespace BetweenUS.Sorted

open Std (TransCmp LawfulEqCmp OrientedCmp ReflCmp)

variable {κ ν : Type} (cmp : κ → κ → Ordering)

/-! ## Operations -/

/-- The keys are strictly ascending. -/
def Ascending (d : List (κ × ν)) : Prop := d.Pairwise fun a b => cmp a.1 b.1 = .lt

/-- No two keys tie. -/
def Distinct (d : List (κ × ν)) : Prop := d.Pairwise fun a b => cmp a.1 b.1 ≠ .eq

instance (d : List (κ × ν)) : Decidable (Distinct cmp d) :=
  inferInstanceAs (Decidable (d.Pairwise fun a b => cmp a.1 b.1 ≠ .eq))

/-- The same values in the same order, under keys that tie. -/
def Alike (d d' : List (κ × ν)) : Prop :=
  List.Forall₂ (fun a b => cmp a.1 b.1 = .eq ∧ a.2 = b.2) d d'

def get : List (κ × ν) → κ → Option ν
  | [], _ => none
  | (k', v') :: d, k =>
      match cmp k k' with
      | .lt => none
      | .eq => some v'
      | .gt => get d k

def insert (k : κ) (v : ν) : List (κ × ν) → List (κ × ν)
  | [] => [(k, v)]
  | (k', v') :: d =>
      match cmp k k' with
      | .lt => (k, v) :: (k', v') :: d
      | .eq => (k, v) :: d
      | .gt => (k', v') :: insert k v d

/-- Insertion that leaves a key it finds as it is. -/
def insertKeeping (k : κ) (v : ν) : List (κ × ν) → List (κ × ν)
  | [] => [(k, v)]
  | (k', v') :: d =>
      match cmp k k' with
      | .lt => (k, v) :: (k', v') :: d
      | .eq => (k', v) :: d
      | .gt => (k', v') :: insertKeeping k v d

def erase (k : κ) : List (κ × ν) → List (κ × ν)
  | [] => []
  | (k', v') :: d =>
      match cmp k k' with
      | .lt => (k', v') :: d
      | .eq => d
      | .gt => (k', v') :: erase k d

/-- The key before `k`, with `previous` the key before the whole list. The
outer option is none when `k` is not a key. -/
def predecessor (k : κ) : List (κ × ν) → Option κ → Option (Option κ)
  | [], _ => none
  | (k', _) :: d, previous =>
      match cmp k k' with
      | .lt => none
      | .eq => some previous
      | .gt => predecessor k d (some k')

/-- The key of the last entry, or `previous` of an empty list. -/
def lastKey (d : List (κ × ν)) (previous : Option κ) : Option κ :=
  (d.getLast?.map Prod.fst).or previous

variable {cmp}

/-! ## Order -/

/-- `k` is below every key of the list. -/
def Below (cmp : κ → κ → Ordering) (k : κ) (d : List (κ × ν)) : Prop :=
  ∀ e ∈ d, cmp k e.1 = .lt

/-- `k` is above every key of the list. -/
def Above (cmp : κ → κ → Ordering) (k : κ) (d : List (κ × ν)) : Prop :=
  ∀ e ∈ d, cmp e.1 k = .lt

@[simp] theorem ascending_nil : Ascending cmp ([] : List (κ × ν)) := List.Pairwise.nil

theorem ascending_cons {e : κ × ν} {d : List (κ × ν)} :
    Ascending cmp (e :: d) ↔ Below cmp e.1 d ∧ Ascending cmp d :=
  List.pairwise_cons

theorem ascending_append {l r : List (κ × ν)} {e : κ × ν} [TransCmp cmp] :
    Ascending cmp (l ++ e :: r) ↔
      Ascending cmp l ∧ Ascending cmp r ∧ Above cmp e.1 l ∧ Below cmp e.1 r := by
  simp only [Ascending, List.pairwise_append, List.pairwise_cons]
  constructor
  · rintro ⟨hl, ⟨hbelow, hr⟩, hcross⟩
    exact ⟨hl, hr, fun a ha => hcross a ha e (by simp), hbelow⟩
  · rintro ⟨hl, hr, habove, hbelow⟩
    refine ⟨hl, ⟨hbelow, hr⟩, ?_⟩
    intro a ha b hb
    rcases List.mem_cons.mp hb with rfl | hb
    · exact habove a ha
    · exact TransCmp.lt_trans (habove a ha) (hbelow b hb)

theorem Below.trans [TransCmp cmp] {k k' : κ} {d : List (κ × ν)} (h : cmp k k' = .lt)
    (hd : Below cmp k' d) : Below cmp k d :=
  fun e he => TransCmp.lt_trans h (hd e he)

theorem Above.trans [TransCmp cmp] {k k' : κ} {d : List (κ × ν)} (h : cmp k k' = .lt)
    (hd : Above cmp k d) : Above cmp k' d :=
  fun e he => TransCmp.lt_trans (hd e he) h

/-- Keys that tie have the same keys above them, and the same below. -/
theorem Below.congr [TransCmp cmp] {k k' : κ} {d : List (κ × ν)} (h : cmp k k' = .eq)
    (hd : Below cmp k' d) : Below cmp k d :=
  fun e he => TransCmp.lt_of_eq_of_lt h (hd e he)

theorem Above.congr [TransCmp cmp] {k k' : κ} {d : List (κ × ν)} (h : cmp k k' = .eq)
    (hd : Above cmp k' d) : Above cmp k d :=
  fun e he => TransCmp.lt_of_lt_of_eq (hd e he) (OrientedCmp.eq_symm h)

/-! ## Cutting at an entry -/

section Append

variable {l r : List (κ × ν)} {k k' : κ} {v v' : ν}

theorem insertKeeping_append_lt (h : cmp k k' = .lt) :
    insertKeeping cmp k v (l ++ (k', v') :: r) = insertKeeping cmp k v l ++ (k', v') :: r := by
  induction l with
  | nil => simp [insertKeeping, h]
  | cons e l ih => cases hc : cmp k e.1 <;> simp [insertKeeping, hc, ih]

theorem erase_append_lt (h : cmp k k' = .lt) :
    erase cmp k (l ++ (k', v') :: r) = erase cmp k l ++ (k', v') :: r := by
  induction l with
  | nil => simp [erase, h]
  | cons e l ih => cases hc : cmp k e.1 <;> simp [erase, hc, ih]

theorem get_append_lt (h : cmp k k' = .lt) :
    get cmp (l ++ (k', v') :: r) k = get cmp l k := by
  induction l with
  | nil => simp [get, h]
  | cons e l ih => cases hc : cmp k e.1 <;> simp [get, hc, ih]

theorem predecessor_append_lt (h : cmp k k' = .lt) (previous : Option κ) :
    predecessor cmp k (l ++ (k', v') :: r) previous = predecessor cmp k l previous := by
  induction l generalizing previous with
  | nil => simp [predecessor, h]
  | cons e l ih => cases hc : cmp k e.1 <;> simp [predecessor, hc, ih]

variable [TransCmp cmp]

theorem gt_of_above {d : List (κ × ν)} {e : κ × ν} (h : Above cmp k d) (he : e ∈ d) :
    cmp k e.1 = .gt :=
  OrientedCmp.gt_of_lt (h e he)

theorem insertKeeping_of_above (h : Above cmp k l) :
    insertKeeping cmp k v (l ++ r) = l ++ insertKeeping cmp k v r := by
  induction l with
  | nil => rfl
  | cons e l ih =>
    have hgt : cmp k e.1 = .gt := gt_of_above h (by simp)
    have hl : Above cmp k l := fun a ha => h a (by simp [ha])
    simp [insertKeeping, hgt, ih hl]

theorem erase_of_above (h : Above cmp k l) : erase cmp k (l ++ r) = l ++ erase cmp k r := by
  induction l with
  | nil => rfl
  | cons e l ih =>
    have hgt : cmp k e.1 = .gt := gt_of_above h (by simp)
    have hl : Above cmp k l := fun a ha => h a (by simp [ha])
    simp [erase, hgt, ih hl]

theorem get_of_above (h : Above cmp k l) : get cmp (l ++ r) k = get cmp r k := by
  induction l with
  | nil => rfl
  | cons e l ih =>
    have hgt : cmp k e.1 = .gt := gt_of_above h (by simp)
    have hl : Above cmp k l := fun a ha => h a (by simp [ha])
    simp [get, hgt, ih hl]

theorem predecessor_of_above (h : Above cmp k l) (previous : Option κ) :
    predecessor cmp k (l ++ r) previous = predecessor cmp k r (lastKey l previous) := by
  induction l generalizing previous with
  | nil => simp [lastKey]
  | cons e l ih =>
    have hgt : cmp k e.1 = .gt := gt_of_above h (by simp)
    have hl : Above cmp k l := fun a ha => h a (by simp [ha])
    simp only [List.cons_append, predecessor, hgt, ih hl]
    cases l <;> simp [lastKey, List.getLast?_cons]

theorem insertKeeping_append_gt (hl : Above cmp k' l) (h : cmp k k' = .gt) :
    insertKeeping cmp k v (l ++ (k', v') :: r) = l ++ (k', v') :: insertKeeping cmp k v r := by
  rw [insertKeeping_of_above (hl.trans (OrientedCmp.lt_of_gt h))]
  simp [insertKeeping, h]

theorem erase_append_gt (hl : Above cmp k' l) (h : cmp k k' = .gt) :
    erase cmp k (l ++ (k', v') :: r) = l ++ (k', v') :: erase cmp k r := by
  rw [erase_of_above (hl.trans (OrientedCmp.lt_of_gt h))]
  simp [erase, h]

theorem get_append_gt (hl : Above cmp k' l) (h : cmp k k' = .gt) :
    get cmp (l ++ (k', v') :: r) k = get cmp r k := by
  rw [get_of_above (hl.trans (OrientedCmp.lt_of_gt h))]
  simp [get, h]

theorem predecessor_append_gt (hl : Above cmp k' l) (h : cmp k k' = .gt)
    (previous : Option κ) : predecessor cmp k (l ++ (k', v') :: r) previous =
      predecessor cmp k r (some k') := by
  rw [predecessor_of_above (hl.trans (OrientedCmp.lt_of_gt h))]
  simp [predecessor, h]

theorem predecessor_append_eq (hl : Above cmp k' l) (h : cmp k k' = .eq)
    (previous : Option κ) :
    predecessor cmp k (l ++ (k', v') :: r) previous = some (lastKey l previous) := by
  rw [predecessor_of_above (hl.congr h)]
  simp [predecessor, h]

theorem insertKeeping_append_eq (hl : Above cmp k' l) (h : cmp k k' = .eq) :
    insertKeeping cmp k v (l ++ (k', v') :: r) = l ++ (k', v) :: r := by
  rw [insertKeeping_of_above (hl.congr h)]
  simp [insertKeeping, h]

theorem erase_append_eq (hl : Above cmp k' l) (h : cmp k k' = .eq) :
    erase cmp k (l ++ (k', v') :: r) = l ++ r := by
  rw [erase_of_above (hl.congr h)]
  simp [erase, h]

theorem get_append_eq (hl : Above cmp k' l) (h : cmp k k' = .eq) :
    get cmp (l ++ (k', v') :: r) k = some v' := by
  rw [get_of_above (hl.congr h)]
  simp [get, h]

end Append

/-! ## Keys below or absent -/

theorem get_of_below {k : κ} {d : List (κ × ν)} (h : Below cmp k d) : get cmp d k = none := by
  cases d with
  | nil => rfl
  | cons e d => simp [get, h e (by simp)]

theorem erase_eq_self {k : κ} {d : List (κ × ν)} (h : get cmp d k = none) :
    erase cmp k d = d := by
  induction d with
  | nil => rfl
  | cons e d ih =>
    rw [get] at h
    rw [erase]
    split at h
    · rfl
    · simp at h
    · simp [ih h]

/-! ## Laws -/

section Laws

variable {d : List (κ × ν)}

theorem mem_insert {k : κ} {v : ν} {e : κ × ν} (h : e ∈ insert cmp k v d) :
    e = (k, v) ∨ e ∈ d := by
  induction d with
  | nil => simpa [insert] using h
  | cons a d ih =>
    rw [insert] at h
    split at h
    · simpa using h
    · rcases List.mem_cons.mp h with h | h
      · exact .inl h
      · exact .inr (by simp [h])
    · rcases List.mem_cons.mp h with h | h
      · exact .inr (by simp [h])
      · rcases ih h with h | h
        · exact .inl h
        · exact .inr (by simp [h])

theorem mem_insert_iff {k : κ} {v : ν} (h : get cmp d k = none) {e : κ × ν} :
    e ∈ insert cmp k v d ↔ e = (k, v) ∨ e ∈ d := by
  refine ⟨mem_insert, ?_⟩
  induction d with
  | nil => simp [insert]
  | cons a d ih =>
    rw [get] at h
    rw [insert]
    split at h
    · simp
    · cases h
    · intro he
      rcases he with rfl | he
      · exact List.mem_cons_of_mem _ (ih h (.inl rfl))
      · rcases List.mem_cons.mp he with rfl | he
        · exact List.mem_cons_self
        · exact List.mem_cons_of_mem _ (ih h (.inr he))

theorem mem_of_mem_erase {k : κ} {e : κ × ν} (h : e ∈ erase cmp k d) : e ∈ d := by
  induction d with
  | nil => exact h
  | cons a d ih =>
    rw [erase] at h
    split at h
    · exact h
    · simp [h]
    · rcases List.mem_cons.mp h with h | h
      · simp [h]
      · simp [ih h]

theorem insert_ne_nil (k : κ) (v : ν) (d : List (κ × ν)) : insert cmp k v d ≠ [] := by
  cases d with
  | nil => simp [insert]
  | cons e d =>
    unfold insert
    split <;> simp

theorem length_erase_le (k : κ) (d : List (κ × ν)) : (erase cmp k d).length ≤ d.length := by
  induction d with
  | nil => exact Nat.le_refl _
  | cons a d ih => cases hc : cmp k a.1 <;> simp [erase, hc, ih]

theorem Ascending.erase (h : Ascending cmp d) (k : κ) : Ascending cmp (erase cmp k d) := by
  induction d with
  | nil => exact h
  | cons a d ih =>
    obtain ⟨hbelow, hd⟩ := ascending_cons.mp h
    rw [Sorted.erase]
    split
    · exact h
    · exact hd
    · exact ascending_cons.mpr ⟨fun e he => hbelow e (mem_of_mem_erase he), ih hd⟩

variable [TransCmp cmp]

theorem not_lt_self {k : κ} (h : cmp k k = .lt) : False := by
  have hself : cmp k k = .eq := ReflCmp.compare_self
  rw [hself] at h
  cases h

theorem Ascending.insert (h : Ascending cmp d) (k : κ) (v : ν) :
    Ascending cmp (insert cmp k v d) := by
  induction d with
  | nil => simp [Sorted.insert, Ascending]
  | cons a d ih =>
    obtain ⟨hbelow, hd⟩ := ascending_cons.mp h
    rw [Sorted.insert]
    split
    · next hc =>
      refine ascending_cons.mpr ⟨?_, h⟩
      intro e he
      rcases List.mem_cons.mp he with rfl | he
      · exact hc
      · exact TransCmp.lt_trans hc (hbelow e he)
    · next hc => exact ascending_cons.mpr ⟨hbelow.congr hc, hd⟩
    · next hc =>
      refine ascending_cons.mpr ⟨?_, ih hd⟩
      intro e he
      rcases mem_insert he with rfl | he
      · exact OrientedCmp.lt_of_gt hc
      · exact hbelow e he

theorem get_insert (h : Ascending cmp d) (k : κ) (v : ν) (k' : κ) :
    get cmp (Sorted.insert cmp k v d) k' = if cmp k' k = .eq then some v else get cmp d k' := by
  induction d with
  | nil => cases hc : cmp k' k <;> simp [Sorted.insert, get, hc]
  | cons a d ih =>
    obtain ⟨hbelow, hd⟩ := ascending_cons.mp h
    rw [Sorted.insert]
    split
    · next hc =>
      cases hk : cmp k' k with
      | lt => simp [get, hk, TransCmp.lt_trans hk hc]
      | eq => simp [get, hk]
      | gt => simp [get, hk]
    · next hc =>
      have hk : cmp k' k = cmp k' a.1 := TransCmp.congr_right hc
      cases hk' : cmp k' a.1 <;> simp [get, hk, hk']
    · next hc =>
      have hak : cmp a.1 k = .lt := OrientedCmp.lt_of_gt hc
      cases hk : cmp k' a.1 with
      | lt => simp [get, hk, TransCmp.lt_trans hk hak]
      | eq => simp [get, hk, TransCmp.lt_of_eq_of_lt hk hak]
      | gt => simp [get, hk, ih hd]

theorem get_erase (h : Ascending cmp d) (k k' : κ) :
    get cmp (Sorted.erase cmp k d) k' = if cmp k' k = .eq then none else get cmp d k' := by
  induction d with
  | nil => simp [Sorted.erase, get]
  | cons a d ih =>
    obtain ⟨hbelow, hd⟩ := ascending_cons.mp h
    rw [Sorted.erase]
    split
    · next hc =>
      split
      · next hk => simp [get, TransCmp.lt_of_eq_of_lt hk hc]
      · rfl
    · next hc =>
      have hk : cmp k' k = cmp k' a.1 := TransCmp.congr_right hc
      cases hk' : cmp k' a.1 with
      | lt => simp [get, hk, hk', get_of_below (hbelow.trans hk')]
      | eq => simp [hk, hk', get_of_below (hbelow.congr hk')]
      | gt => simp [get, hk, hk']
    · next hc =>
      have hak : cmp a.1 k = .lt := OrientedCmp.lt_of_gt hc
      cases hk : cmp k' a.1 with
      | lt => simp [get, hk, TransCmp.lt_trans hk hak]
      | eq => simp [get, hk, TransCmp.lt_of_eq_of_lt hk hak]
      | gt => simp [get, hk, ih hd]

/-- Ascending lists with the same entries are the same. -/
theorem Ascending.eq_of_mem_iff {d' : List (κ × ν)} (h : Ascending cmp d)
    (h' : Ascending cmp d') (hmem : ∀ e, e ∈ d ↔ e ∈ d') : d = d' := by
  have : Std.Antisymm fun a b : κ × ν => cmp a.1 b.1 = .lt :=
    ⟨fun _ _ hab hba => (not_lt_self (TransCmp.lt_trans hab hba)).elim⟩
  have : Std.Irrefl fun a b : κ × ν => cmp a.1 b.1 = .lt := ⟨fun _ => not_lt_self⟩
  exact List.Pairwise.eq_of_mem_iff h h' hmem

theorem Ascending.nodup_keys (h : Ascending cmp d) : (d.map Prod.fst).Nodup := by
  apply List.pairwise_map.mpr
  exact h.imp fun {a b} hlt (heq : a.1 = b.1) => not_lt_self (heq ▸ hlt)

theorem get_congr {k k' : κ} (h : cmp k k' = .eq) : get cmp d k = get cmp d k' := by
  induction d with
  | nil => rfl
  | cons a d ih =>
    have ha : cmp k a.1 = cmp k' a.1 := TransCmp.congr_left h
    simp only [get, ha, ih]

/-- In an ascending list an entry is found under its key, and under every
key that ties with it. -/
theorem get_of_mem (h : Ascending cmp d) {e : κ × ν} (he : e ∈ d) {k : κ}
    (hk : cmp k e.1 = .eq) : get cmp d k = some e.2 := by
  obtain ⟨l, r, rfl⟩ := List.append_of_mem he
  exact get_append_eq (ascending_append.mp h).2.2.1 hk

/-! ### Keys that tie -/

theorem Alike.refl (d : List (κ × ν)) : Alike cmp d d :=
  List.forall₂_same.mpr fun _ _ => ⟨ReflCmp.compare_self, rfl⟩

variable {d' : List (κ × ν)}

/-- Updates keep lists alike, also where one keeps a key and the other
replaces it. -/
theorem Alike.insert (h : Alike cmp d d') (k : κ) (v : ν) :
    Alike cmp (insert cmp k v d) (Sorted.insert cmp k v d') := by
  induction h with
  | nil => exact Alike.refl _
  | @cons a b d d' hab hd ih =>
    have hk : cmp k a.1 = cmp k b.1 := TransCmp.congr_right hab.1
    rw [Sorted.insert, Sorted.insert, hk]
    split
    · exact .cons ⟨ReflCmp.compare_self, rfl⟩ (.cons hab hd)
    · exact .cons ⟨ReflCmp.compare_self, rfl⟩ hd
    · exact .cons hab ih

theorem Alike.insertKeeping (h : Alike cmp d d') (k : κ) (v : ν) :
    Alike cmp (insertKeeping cmp k v d) (Sorted.insert cmp k v d') := by
  induction h with
  | nil => exact Alike.refl _
  | @cons a b d d' hab hd ih =>
    have hk : cmp k a.1 = cmp k b.1 := TransCmp.congr_right hab.1
    rw [Sorted.insertKeeping, Sorted.insert, hk]
    split
    · exact .cons ⟨ReflCmp.compare_self, rfl⟩ (.cons hab hd)
    · next hc => exact .cons ⟨OrientedCmp.eq_symm (hk.trans hc), rfl⟩ hd
    · exact .cons hab ih

theorem Alike.erase (h : Alike cmp d d') (k : κ) :
    Alike cmp (erase cmp k d) (Sorted.erase cmp k d') := by
  induction h with
  | nil => exact .nil
  | @cons a b d d' hab hd ih =>
    have hk : cmp k a.1 = cmp k b.1 := TransCmp.congr_right hab.1
    rw [Sorted.erase, Sorted.erase, hk]
    split
    · exact .cons hab hd
    · exact hd
    · exact .cons hab ih

theorem Alike.below (h : Alike cmp d d') {k : κ} (h' : Below cmp k d') : Below cmp k d := by
  induction h with
  | nil => exact h'
  | @cons a b d d' hab hd ih =>
    intro e he
    rcases List.mem_cons.mp he with rfl | he
    · exact TransCmp.lt_of_lt_of_eq (h' b (by simp)) (OrientedCmp.eq_symm hab.1)
    · exact ih (fun e' he' => h' e' (by simp [he'])) e he

theorem Alike.ascending (h : Alike cmp d d') (h' : Ascending cmp d') : Ascending cmp d := by
  induction h with
  | nil => exact h'
  | @cons a b d d' hab hd ih =>
    obtain ⟨hbelow, hd'⟩ := ascending_cons.mp h'
    exact ascending_cons.mpr ⟨(Alike.below hd hbelow).congr hab.1, ih hd'⟩

theorem Ascending.insertKeeping (h : Ascending cmp d) (k : κ) (v : ν) :
    Ascending cmp (insertKeeping cmp k v d) :=
  ((Alike.refl d).insertKeeping k v).ascending (h.insert k v)

/-! ### Dictionaries with the same lookups

A dictionary that answers every key of another one and is no longer answers
every key alike. Ties make this more than an inclusion of lists: the keys
that tie may be written differently in the two. -/

theorem length_erase_of_mem (h : Ascending cmp d) {e : κ × ν} (he : e ∈ d) {k : κ}
    (hk : cmp k e.1 = .eq) : (Sorted.erase cmp k d).length + 1 = d.length := by
  obtain ⟨l, r, rfl⟩ := List.append_of_mem he
  rw [erase_append_eq (ascending_append.mp h).2.2.1 hk, List.length_append, List.length_append,
    List.length_cons]
  rfl

omit [TransCmp cmp] in
theorem exists_mem_of_get {k : κ} {v : ν} (h : get cmp d k = some v) :
    ∃ e ∈ d, cmp k e.1 = .eq := by
  induction d with
  | nil => cases h
  | cons a d ih =>
    rw [get] at h
    split at h
    · cases h
    · next hc => exact ⟨a, List.mem_cons_self, hc⟩
    · obtain ⟨e, he, hk⟩ := ih h
      exact ⟨e, List.mem_cons_of_mem _ he, hk⟩

theorem length_le_and_get_eq (h : Ascending cmp d) (h' : Ascending cmp d')
    (hget : ∀ e ∈ d, get cmp d' e.1 = some e.2) :
    d.length ≤ d'.length ∧ (d.length = d'.length → ∀ k, get cmp d k = get cmp d' k) := by
  -- the first entry is taken out of both
  induction d generalizing d' with
  | nil =>
    refine ⟨Nat.zero_le _, fun hlength k => ?_⟩
    obtain rfl := List.length_eq_zero_iff.mp hlength.symm
    rfl
  | cons a d ih =>
    obtain ⟨hbelow, hd⟩ := ascending_cons.mp h
    have ha : get cmp d' a.1 = some a.2 := hget a List.mem_cons_self
    obtain ⟨e', he', hk'⟩ := exists_mem_of_get ha
    have hlength : (Sorted.erase cmp a.1 d').length + 1 = d'.length :=
      length_erase_of_mem h' he' hk'
    have hrest : ∀ e ∈ d, get cmp (Sorted.erase cmp a.1 d') e.1 = some e.2 := by
      intro e he
      have hgt : cmp e.1 a.1 = .gt := OrientedCmp.gt_of_lt (hbelow e he)
      rw [get_erase h', if_neg (by simp [hgt])]
      exact hget e (List.mem_cons_of_mem _ he)
    obtain ⟨hle, heq⟩ := ih hd (h'.erase a.1) hrest
    refine ⟨by rw [List.length_cons]; omega, fun hsame k => ?_⟩
    have hkey := heq (by rw [List.length_cons] at hsame; omega) k
    rw [get_erase h'] at hkey
    rw [get]
    cases hc : cmp k a.1 with
    | lt => simpa [hc, get_of_below (hbelow.trans hc)] using hkey
    | eq => exact ha.symm.trans (get_congr hc).symm
    | gt => simpa [hc] using hkey

/-! ### Comparators without ties -/

variable [LawfulEqCmp cmp]

theorem get_eq_some_iff (h : Ascending cmp d) {k : κ} {v : ν} :
    get cmp d k = some v ↔ (k, v) ∈ d := by
  induction d with
  | nil => simp [get]
  | cons a d ih =>
    obtain ⟨hbelow, hd⟩ := ascending_cons.mp h
    rw [get]
    split
    · next hc =>
      have hne : ¬ (k, v) ∈ a :: d := by
        intro hmem
        rcases List.mem_cons.mp hmem with rfl | hmem
        · exact not_lt_self hc
        · exact not_lt_self (TransCmp.lt_trans hc (hbelow _ hmem))
      simp only [hne, reduceCtorEq]
    · next hc =>
      obtain rfl : k = a.1 := LawfulEqCmp.eq_of_compare hc
      have hnot : ¬ (a.1, v) ∈ d := fun hmem => not_lt_self (hbelow (a.1, v) hmem)
      simp only [List.mem_cons, hnot, or_false, Option.some.injEq, Prod.ext_iff, true_and]
      exact eq_comm
    · next hc =>
      have hne : (k, v) ≠ a := by
        rintro rfl
        exact not_lt_self (OrientedCmp.lt_of_gt hc)
      simp [ih hd, hne]

/-- Ascending lists with the same lookups are the same. -/
theorem Ascending.ext {d' : List (κ × ν)} (h : Ascending cmp d) (h' : Ascending cmp d')
    (hget : ∀ k, get cmp d k = get cmp d' k) : d = d' := by
  apply h.eq_of_mem_iff h'
  rintro ⟨k, v⟩
  rw [← get_eq_some_iff h, ← get_eq_some_iff h', hget]

/-- Only the entry at `k` counts where all others are dropped. -/
theorem flatMap_eq_get [DecidableEq κ] {β : Type} (h : Ascending cmp d) (k : κ)
    (f : ν → List β) :
    (d.flatMap fun e => if e.1 = k then f e.2 else []) = (get cmp d k).elim [] f := by
  have hdrop : ∀ d' : List (κ × ν), (∀ e ∈ d', e.1 ≠ k) →
      (d'.flatMap fun e => if e.1 = k then f e.2 else []) = [] := by
    intro d' hne
    exact List.flatMap_eq_nil_iff.mpr fun e he => if_neg (hne e he)
  induction d with
  | nil => rfl
  | cons a d ih =>
    obtain ⟨hbelow, hd⟩ := ascending_cons.mp h
    rw [get]
    split
    · next hc =>
      refine hdrop _ fun e he heq => ?_
      subst heq
      rcases List.mem_cons.mp he with rfl | he
      · exact not_lt_self hc
      · exact not_lt_self (TransCmp.lt_trans hc (hbelow e he))
    · next hc =>
      obtain rfl : k = a.1 := LawfulEqCmp.eq_of_compare hc
      rw [List.flatMap_cons, if_pos rfl, hdrop d, List.append_nil]
      · rfl
      · intro e he heq
        exact not_lt_self (heq ▸ hbelow e he)
    · next hc =>
      have hne : a.1 ≠ k := by
        rintro rfl
        exact not_lt_self (OrientedCmp.lt_of_gt hc)
      rw [List.flatMap_cons, if_neg hne, List.nil_append, ih hd]

end Laws

/-! ## Lookup by equality -/

/-- In a list of entries with distinct keys, whatever their order, a lookup
finds exactly what is there. -/
theorem lookup_eq_some_iff_mem [BEq κ] [LawfulBEq κ] {l : List (κ × ν)}
    (h : (l.map Prod.fst).Nodup) {k : κ} {v : ν} : l.lookup k = some v ↔ (k, v) ∈ l := by
  induction l with
  | nil => simp
  | cons e l ih =>
    obtain ⟨k', v'⟩ := e
    rw [List.map_cons, List.nodup_cons] at h
    rw [List.lookup_cons, List.mem_cons, Prod.mk.injEq]
    cases hk : k == k' with
    | true =>
      obtain rfl := eq_of_beq hk
      have hnot : (k, v) ∉ l := fun hmem => h.1 (List.mem_map.mpr ⟨(k, v), hmem, rfl⟩)
      simp [hnot, eq_comm]
    | false =>
      have hne : k ≠ k' := ne_of_beq_false hk
      simp [hne, ih h.2]

theorem lookup_map [BEq κ] {ω : Type} (f : ν → ω) (l : List (κ × ν)) (k : κ) :
    (l.map fun e => (e.1, f e.2)).lookup k = (l.lookup k).map f := by
  induction l with
  | nil => rfl
  | cons e l ih =>
    rw [List.map_cons, List.lookup_cons, List.lookup_cons]
    cases k == e.1 with
    | true => rfl
    | false => exact ih

theorem lookup_perm [BEq κ] [LawfulBEq κ] {l l' : List (κ × ν)} (h : (l.map Prod.fst).Nodup)
    (hperm : l.Perm l') (k : κ) : l.lookup k = l'.lookup k := by
  have h' : (l'.map Prod.fst).Nodup := (hperm.map Prod.fst).nodup_iff.mp h
  ext v
  rw [lookup_eq_some_iff_mem h, lookup_eq_some_iff_mem h', hperm.mem_iff]

end BetweenUS.Sorted
