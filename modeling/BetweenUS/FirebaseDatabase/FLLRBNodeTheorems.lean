/-
BetweenUS.FirebaseDatabase.FLLRBNodeTheorems — insertion and deletion of
the left-leaning red-black tree keep it balanced, and are insertion and
deletion of the ascending dictionary that the tree lists in order.
Insertion keeps the key it finds, which may be another one that ties.
-/
import BetweenUS.FirebaseDatabase.FLLRBNode
import BetweenUS.Sorted.Dictionary

namespace BetweenUS.FirebaseDatabase

namespace FLLRBNode

variable {κ ν : Type}

/-! ## Rebalancing keeps the entries in order -/

theorem isEmpty_of_isRed {n : FLLRBNode κ ν} (h : n.isRed = true) : n.isEmpty = false := by
  cases n with
  | empty => cases h
  | value => rfl

theorem isEmpty_of_left_isRed {n : FLLRBNode κ ν} (h : n.left.isRed = true) :
    n.isEmpty = false := by
  cases n with
  | empty => cases h
  | value => rfl

@[simp] theorem inorder_withColor (n : FLLRBNode κ ν) (c : FLLRBColor) :
    (n.withColor c).inorder = n.inorder := by
  cases n <;> rfl

@[simp] theorem inorder_flipped (n : FLLRBNode κ ν) : n.flipped.inorder = n.inorder := by
  cases n <;> rfl

@[simp] theorem inorder_colorFlip (n : FLLRBNode κ ν) : n.colorFlip.inorder = n.inorder := by
  cases n <;> simp [colorFlip, inorder]

theorem inorder_rotateLeft {n : FLLRBNode κ ν} (h : n.right.isEmpty = false) :
    n.rotateLeft.inorder = n.inorder := by
  fun_cases rotateLeft n with
  | case1 => simp [inorder]
  | case2 n hn =>
    rcases n with _ | ⟨k, v, c, l, _ | _⟩
    · cases h
    · cases h
    · exact (hn _ _ _ _ _ _ _ _ _ rfl).elim

theorem inorder_rotateRight {n : FLLRBNode κ ν} (h : n.left.isEmpty = false) :
    n.rotateRight.inorder = n.inorder := by
  fun_cases rotateRight n with
  | case1 => simp [inorder]
  | case2 n hn =>
    rcases n with _ | ⟨k, v, c, _ | _, r⟩
    · cases h
    · cases h
    · exact (hn _ _ _ _ _ _ _ _ _ rfl).elim

/-- Each rotation of `fixUp` is made around a red child, so around a child
that is there. -/
@[simp] theorem inorder_fixUp (n : FLLRBNode κ ν) : n.fixUp.inorder = n.inorder := by
  unfold fixUp
  extract_lets m p
  have hm : m.inorder = n.inorder := by
    unfold m
    split
    · next h => exact inorder_rotateLeft (isEmpty_of_isRed (by simp_all))
    · rfl
  have hp : p.inorder = m.inorder := by
    unfold p
    split
    · next h => exact inorder_rotateRight (isEmpty_of_isRed (by simp_all))
    · rfl
  split
  · rw [inorder_colorFlip, hp, hm]
  · rw [hp, hm]

@[simp] theorem inorder_moveRedLeft (n : FLLRBNode κ ν) :
    n.moveRedLeft.inorder = n.inorder := by
  unfold moveRedLeft
  extract_lets m
  split
  · next h =>
    rcases hm : m with _ | ⟨k, v, c, l, r⟩
    · rw [hm] at h
      cases h
    · rcases r with _ | ⟨rk, rv, rc, _ | ⟨a, b, d, e, f⟩, rr⟩
      · rw [hm] at h
        cases h
      · rw [hm] at h
        cases h
      · rw [inorder_colorFlip, ← inorder_colorFlip n]
        change _ = m.inorder
        simp [hm, rotateRight, withRight, rotateLeft, inorder]
  · exact inorder_colorFlip n

@[simp] theorem inorder_moveRedRight (n : FLLRBNode κ ν) :
    n.moveRedRight.inorder = n.inorder := by
  unfold moveRedRight
  extract_lets m
  split
  · next h =>
    rw [inorder_colorFlip, inorder_rotateRight (isEmpty_of_left_isRed h)]
    exact inorder_colorFlip n
  · exact inorder_colorFlip n

@[simp] theorem inorder_leanLeft (n : FLLRBNode κ ν) : n.leanLeft.inorder = n.inorder := by
  unfold leanLeft
  split <;> simp

@[simp] theorem inorder_leanRight (n : FLLRBNode κ ν) : n.leanRight.inorder = n.inorder := by
  have hrotated : n.leanRotated.inorder = n.inorder := by
    unfold leanRotated
    split
    · next h => exact inorder_rotateRight (isEmpty_of_isRed h)
    · rfl
  unfold leanRight
  extract_lets m
  split <;> simp [m, hrotated]

/-! ## Balance -/

/-- Red nodes have black children, right children are black, and every
path to an empty node passes `n` black nodes. -/
inductive Balanced : FLLRBColor → Nat → FLLRBNode κ ν → Prop
  | empty : Balanced .black 0 empty
  | red {n k v l r} : Balanced .black n l → Balanced .black n r →
      Balanced .red n (value k v .red l r)
  | black {c n k v l r} : Balanced c n l → Balanced .black n r →
      Balanced .black (n + 1) (value k v .black l r)

/-- A red node whose left child may be red: what an insertion below a red
node can leave for its parent to repair. -/
inductive RedLeft : Nat → FLLRBNode κ ν → Prop
  | intro {c n k v l r} : Balanced c n l → Balanced .black n r → RedLeft n (value k v .red l r)

theorem Balanced.isRed_eq {c : FLLRBColor} {n : Nat} {t : FLLRBNode κ ν} (h : Balanced c n t) :
    t.isRed = decide (c = .red) := by
  cases h <;> rfl

theorem Balanced.left_isRed {n : Nat} {t : FLLRBNode κ ν} (h : Balanced .red n t) :
    t.left.isRed = false := by
  cases h with
  | red hl hr => exact hl.isRed_eq

theorem Balanced.eq_empty {t : FLLRBNode κ ν} (h : Balanced .black 0 t) : t = FLLRBNode.empty := by
  cases h
  rfl

/-! ### What `fixUp` repairs -/

section FixUp

variable {n : Nat} {k : κ} {v : ν} {l r : FLLRBNode κ ν}

theorem fixUp_eq_self {c : FLLRBColor} {t : FLLRBNode κ ν} (h : Balanced c n t) :
    t.fixUp = t := by
  cases h with
  | empty => rfl
  | red hl hr => simp [fixUp, hl.isRed_eq, hr.isRed_eq]
  | @black c n k v l r hl hr =>
    cases c with
    | red => simp [fixUp, hl.isRed_eq, hr.isRed_eq, hl.left_isRed]
    | black => simp [fixUp, hl.isRed_eq, hr.isRed_eq]

/-- A right child that has turned red becomes the left one. -/
theorem fixUp_right_red (hl : Balanced .black n l) (hr : Balanced .red n r) (c : FLLRBColor) :
    ∃ k' v' l' r', fixUp (value k v c l r) = value k' v' c l' r' ∧ Balanced .red n l' ∧
      Balanced .black n r' := by
  cases hr with
  | @red _ rk rv rl rr hrl hrr =>
    refine ⟨rk, rv, value k v .red l rl, rr, ?_, .red hl hrl, hrr⟩
    simp [fixUp, rotateLeft, hl.isRed_eq, hrr.isRed_eq]

/-- Two red children pass their colour up. -/
theorem fixUp_both_red (hl : Balanced .red n l) (hr : Balanced .red n r) (c : FLLRBColor) :
    ∃ l' r', fixUp (value k v c l r) = value k v c.flip l' r' ∧ Balanced .black (n + 1) l' ∧
      Balanced .black (n + 1) r' := by
  cases hl with
  | @red _ lk lv ll lr hll hlr =>
    cases hr with
    | @red _ rk rv rl rr hrl hrr =>
      refine ⟨value lk lv .black ll lr, value rk rv .black rl rr, ?_, .black hll hlr,
        .black hrl hrr⟩
      simp [fixUp, hll.isRed_eq, colorFlip, flipped, FLLRBColor.flip]

/-- Two red nodes in a row on the left become the two children of the
middle one. -/
theorem fixUp_redLeft (hl : RedLeft n l) (hr : Balanced .black n r) :
    ∃ c, Balanced c (n + 1) (fixUp (value k v .black l r)) := by
  cases hl with
  | @intro c _ lk lv ll lr hll hlr =>
    cases c with
    | black =>
      have h : Balanced .black (n + 1) (value k v .black (value lk lv .red ll lr) r) :=
        .black (.red hll hlr) hr
      exact ⟨.black, (fixUp_eq_self h).symm ▸ h⟩
    | red =>
      cases hll with
      | @red _ a b x y hx hy =>
        refine ⟨.red, ?_⟩
        have heq : fixUp (value k v .black (value lk lv .red (value a b .red x y) lr) r) =
            value lk lv .red (value a b .black x y) (value k v .black lr r) := by
          simp [fixUp, hr.isRed_eq, rotateRight, colorFlip, flipped,
            FLLRBColor.flip]
        rw [heq]
        exact .red (.black hx hy) (.black hlr hr)

end FixUp

/-! ### Insertion -/

theorem balanced_insertKey (cmp : κ → κ → Ordering) (aKey : κ) (aValue : ν)
    {c : FLLRBColor} {n : Nat} {t : FLLRBNode κ ν} (h : Balanced c n t) :
    (c = .black → ∃ c', Balanced c' n (t.insertKey cmp aKey aValue)) ∧
      (c = .red → RedLeft n (t.insertKey cmp aKey aValue)) := by
  induction h with
  | empty => exact ⟨fun _ => ⟨.red, .red .empty .empty⟩, by simp⟩
  | @red n k v l r hl hr ihl ihr =>
    refine ⟨by simp, fun _ => ?_⟩
    rw [insertKey]
    split
    · -- the new left child may be red, and stays for the parent to repair
      obtain ⟨c', hl'⟩ := ihl.1 rfl
      have heq : fixUp (value k v .red (l.insertKey cmp aKey aValue) r) =
          value k v .red (l.insertKey cmp aKey aValue) r := by
        cases c' with
        | red => simp [fixUp, hl'.isRed_eq, hr.isRed_eq, hl'.left_isRed]
        | black => exact fixUp_eq_self (.red hl' hr)
      rw [heq]
      exact .intro hl' hr
    · rw [fixUp_eq_self (.red hl hr)]
      exact .intro hl hr
    · obtain ⟨c', hr'⟩ := ihr.1 rfl
      cases c' with
      | red =>
        obtain ⟨k', v', l', r', heq, hl', hr'⟩ := fixUp_right_red (k := k) (v := v) hl hr' .red
        rw [heq]
        exact .intro hl' hr'
      | black =>
        rw [fixUp_eq_self (.red hl hr')]
        exact .intro hl hr'
  | @black c n k v l r hl hr ihl ihr =>
    refine ⟨fun _ => ?_, by simp⟩
    rw [insertKey]
    split
    · cases c with
      | red => exact fixUp_redLeft (ihl.2 rfl) hr
      | black =>
        obtain ⟨c', hl'⟩ := ihl.1 rfl
        exact ⟨.black, by rw [fixUp_eq_self (.black hl' hr)]; exact .black hl' hr⟩
    · exact ⟨.black, by rw [fixUp_eq_self (.black hl hr)]; exact .black hl hr⟩
    · obtain ⟨c', hr'⟩ := ihr.1 rfl
      cases c' with
      | black => exact ⟨.black, by rw [fixUp_eq_self (.black hl hr')]; exact .black hl hr'⟩
      | red =>
        cases c with
        | red =>
          obtain ⟨l', r', heq, hl', hr'⟩ := fixUp_both_red (k := k) (v := v) hl hr' .black
          exact ⟨.red, heq ▸ .red hl' hr'⟩
        | black =>
          obtain ⟨k', v', l', r', heq, hl', hr'⟩ :=
            fixUp_right_red (k := k) (v := v) hl hr' .black
          exact ⟨.black, heq ▸ .black hl' hr'⟩

/-! ### Going left

Deletion may only take a node away where a red one is near. -/

/-- A node from whose subtree an entry can be taken without changing the
black depth: it is red, or it is black over a red left child. -/
inductive Spare : FLLRBColor → Nat → FLLRBNode κ ν → Prop
  | red {n k v l r} : Balanced .black n l → Balanced .black n r → Spare .red n (value k v .red l r)
  | redLeft {n k v l r} : Balanced .red n l → Balanced .black n r →
      Spare .black (n + 1) (value k v .black l r)

theorem Balanced.spare {n : Nat} {t : FLLRBNode κ ν} (h : Balanced .red n t) : Spare .red n t := by
  cases h with
  | red hl hr => exact .red hl hr

theorem Balanced.spare_of_left_isRed {n : Nat} {t : FLLRBNode κ ν} (h : Balanced .black n t)
    (hleft : t.left.isRed = true) : Spare .black n t := by
  cases h with
  | empty => cases hleft
  | @black c n k v l r hl hr =>
    cases c with
    | red => exact .redLeft hl hr
    | black => simp [hl.isRed_eq] at hleft

theorem Spare.balanced {c : FLLRBColor} {n : Nat} {t : FLLRBNode κ ν} (h : Spare c n t) :
    Balanced c n t := by
  cases h with
  | red hl hr => exact .red hl hr
  | redLeft hl hr => exact .black hl hr

/-- What `leanLeft` makes of a node of colour `c` over children of black
depth `n`: the left child has a red node to spare, either at once or after
a red pair was borrowed from the node itself. -/
inductive LeftReady (c : FLLRBColor) (n : Nat) : FLLRBNode κ ν → Prop
  | keep {cl k v l r} : (c = .red → cl = .black) → Spare cl n l → Balanced .black n r →
      LeftReady c n (value k v c l r)
  | flip {m k v l r} : n = m + 1 → Balanced .red m l → Balanced .red m r →
      LeftReady c n (value k v c.flip l r)

theorem leftReady_leanLeft {c cl : FLLRBColor} {n : Nat} {k : κ} {v : ν} {l r : FLLRBNode κ ν}
    (hc : c = .red → cl = .black) (hl : Balanced cl n l) (hr : Balanced .black n r)
    (hne : l.isEmpty = false) : LeftReady c n (value k v c l r).leanLeft := by
  unfold leanLeft
  split
  · next hmove =>
    simp only [left_value, hne, Bool.not_false, Bool.true_and, Bool.and_eq_true,
      Bool.not_eq_true'] at hmove
    -- both children are black nodes, and the left one has no red child
    cases hl with
    | empty => cases hne
    | red => simp at hmove
    | @black cll m lk lv ll lr hll hlr =>
      obtain rfl : cll = .black := by
        cases cll with
        | red => simp [hll.isRed_eq] at hmove
        | black => rfl
      cases hr with
      | @black crl _ rk rv rl rr hrl hrr =>
        cases crl with
        | black =>
          have heq : moveRedLeft (value k v c (value lk lv .black ll lr)
              (value rk rv .black rl rr)) =
              value k v c.flip (value lk lv .red ll lr) (value rk rv .red rl rr) := by
            simp [moveRedLeft, colorFlip, flipped, FLLRBColor.flip, hrl.isRed_eq]
          rw [heq]
          exact .flip rfl (.red hll hlr) (.red hrl hrr)
        | red =>
          cases hrl with
          | @red _ a b x y hx hy =>
            have heq : moveRedLeft (value k v c (value lk lv .black ll lr)
                (value rk rv .black (value a b .red x y) rr)) =
                value a b c (value k v .black (value lk lv .red ll lr) x)
                  (value rk rv .black y rr) := by
              cases c <;> simp [moveRedLeft, colorFlip, flipped, FLLRBColor.flip, withRight,
                rotateRight, rotateLeft]
            rw [heq]
            exact .keep (fun _ => rfl) (.redLeft (.red hll hlr) hx) (.black hy hrr)
  · next hmove =>
    simp only [left_value, hne, Bool.not_false, Bool.true_and, Bool.and_eq_true,
      Bool.not_eq_true', not_and, Bool.not_eq_false] at hmove
    cases cl with
    | red => exact .keep hc hl.spare hr
    | black => exact .keep hc (hl.spare_of_left_isRed (hmove hl.isRed_eq)) hr

/-- The black depth that a node of this colour adds. -/
def colorDepth : FLLRBColor → Nat
  | .red => 0
  | .black => 1

theorem balanced_value {c cl : FLLRBColor} {n : Nat} {k : κ} {v : ν} {l r : FLLRBNode κ ν}
    (hc : c = .red → cl = .black) (hl : Balanced cl n l) (hr : Balanced .black n r) :
    Balanced c (n + colorDepth c) (value k v c l r) := by
  cases c with
  | red =>
    obtain rfl := hc rfl
    exact .red hl hr
  | black => exact .black hl hr

theorem balanced_fixUp_value {c cl : FLLRBColor} {n : Nat} {k : κ} {v : ν}
    {l r : FLLRBNode κ ν} (hc : c = .red → cl = .black) (hl : Balanced cl n l)
    (hr : Balanced .black n r) : Balanced c (n + colorDepth c) (fixUp (value k v c l r)) := by
  rw [fixUp_eq_self (balanced_value hc hl hr)]
  exact balanced_value hc hl hr

/-- A black node over children that are both red, or of which the right one
may have become red. -/
theorem balanced_fixUp_black {cl cr : FLLRBColor} {n : Nat} {k : κ} {v : ν}
    {l r : FLLRBNode κ ν} (hl : Balanced cl n l) (hr : Balanced cr n r) :
    ∃ c, (cl = .black → c = .black) ∧ Balanced c (n + 1) (fixUp (value k v .black l r)) := by
  cases cr with
  | black => exact ⟨.black, fun _ => rfl, balanced_fixUp_value (by simp) hl hr⟩
  | red =>
    cases cl with
    | black =>
      obtain ⟨k', v', l', r', heq, hl', hr'⟩ := fixUp_right_red (k := k) (v := v) hl hr .black
      exact ⟨.black, fun _ => rfl, heq ▸ .black hl' hr'⟩
    | red =>
      obtain ⟨l', r', heq, hl', hr'⟩ := fixUp_both_red (k := k) (v := v) hl hr .black
      exact ⟨.red, by simp, heq ▸ .red hl' hr'⟩

/-! ### `removeMin` -/

theorem inorder_eq_nil_iff {t : FLLRBNode κ ν} : t.inorder = [] ↔ t.isEmpty = true := by
  cases t <;> simp [inorder]

theorem removeMin_eq {t l r : FLLRBNode κ ν} {k : κ} {v : ν} {c : FLLRBColor}
    (h : t.leanLeft = value k v c l r) (hne : t.left.isEmpty = false) :
    t.removeMin = fixUp (value k v c l.removeMin r) := by
  rw [removeMin]
  simp only [hne, Bool.false_eq_true, ↓reduceIte]
  split
  · simp_all
  · simp_all

theorem Spare.isEmpty {c : FLLRBColor} {n : Nat} {t : FLLRBNode κ ν} (h : Spare c n t) :
    t.isEmpty = false := by
  cases h <;> rfl

theorem leanLeft_of_left_isRed {t : FLLRBNode κ ν} (h : t.left.isRed = true) :
    t.leanLeft = t := by
  simp [leanLeft, h]

theorem leanLeft_of_left_isEmpty {t : FLLRBNode κ ν} (h : t.left.isEmpty = true) :
    t.leanLeft = t := by
  simp [leanLeft, h]

theorem inorder_removeMin_of_left {t l r : FLLRBNode κ ν} {k : κ} {v : ν} {c : FLLRBColor}
    (h : t.leanLeft = value k v c l r) (hne : t.left.isEmpty = false)
    (hl : l.isEmpty = false) (htail : l.removeMin.inorder = l.inorder.tail) :
    t.removeMin.inorder = t.inorder.tail := by
  have hlist : l.inorder ≠ [] := by simp [inorder_eq_nil_iff, hl]
  calc t.removeMin.inorder = l.inorder.tail ++ (k, v) :: r.inorder := by
        rw [removeMin_eq h hne, inorder_fixUp, inorder, htail]
    _ = (l.inorder ++ (k, v) :: r.inorder).tail := (List.tail_append_of_ne_nil hlist).symm
    _ = t.inorder.tail := by rw [← inorder_leanLeft t, h, inorder]

theorem eq_empty_of_isEmpty {t : FLLRBNode κ ν} (h : t.isEmpty = true) : t = empty := by
  cases t with
  | empty => rfl
  | value => cases h

/-- `removeMin` takes the first entry away and keeps the black depth. -/
theorem removeMin_spec {c : FLLRBColor} {n : Nat} {t : FLLRBNode κ ν} (h : Spare c n t) :
    (∃ c', (c = .black → c' = .black) ∧ Balanced c' n t.removeMin) ∧
      t.removeMin.inorder = t.inorder.tail := by
  induction hN : t.count using Nat.strong_induction_on generalizing c n t with
  | _ N ih =>
    subst hN
    -- the recursive call is on the left child that `leanLeft` leaves
    have hrec : ∀ {k v c₀ l r c' n'}, t.leanLeft = value k v c₀ l r → Spare c' n' l →
        (∃ c'', (c' = .black → c'' = .black) ∧ Balanced c'' n' l.removeMin) ∧
          l.removeMin.inorder = l.inorder.tail := by
      intro k v c₀ l r c' n' hlean hl
      exact ih _ (count_child_lt (hlean ▸ count_leanLeft_le t)).1 hl rfl
    cases h with
    | @red _ k v l r hl hr =>
      cases hempty : l.isEmpty with
      | true =>
        obtain rfl := eq_empty_of_isEmpty hempty
        cases hl
        obtain rfl := hr.eq_empty
        rw [removeMin]
        exact ⟨⟨.black, by simp, .empty⟩, rfl⟩
      | false =>
        have hready : LeftReady .red n (value k v .red l r).leanLeft :=
          leftReady_leanLeft (fun _ => rfl) hl hr hempty
        generalize hlean : (value k v .red l r).leanLeft = t' at hready
        cases hready with
        | keep hc hl' hr' =>
          obtain ⟨⟨c', hc', hbal⟩, htail⟩ := hrec hlean hl'
          refine ⟨⟨.red, by simp, ?_⟩, inorder_removeMin_of_left hlean hempty hl'.isEmpty htail⟩
          rw [removeMin_eq hlean hempty]
          exact balanced_fixUp_value (fun _ => hc' (hc rfl)) hbal hr'
        | flip hn hl' hr' =>
          subst hn
          obtain ⟨⟨c', -, hbal⟩, htail⟩ := hrec hlean hl'.spare
          refine ⟨?_, inorder_removeMin_of_left hlean hempty hl'.spare.isEmpty htail⟩
          rw [removeMin_eq hlean hempty]
          obtain ⟨c, -, hfixed⟩ := balanced_fixUp_black hbal hr'
          exact ⟨c, by simp, hfixed⟩
    | @redLeft m k v l r hl hr =>
      have hempty : l.isEmpty = false := hl.spare.isEmpty
      have hlean : (value k v .black l r).leanLeft = value k v .black l r :=
        leanLeft_of_left_isRed hl.isRed_eq
      obtain ⟨⟨c', -, hbal⟩, htail⟩ := hrec hlean hl.spare
      refine ⟨⟨.black, fun _ => rfl, ?_⟩, inorder_removeMin_of_left hlean hempty hempty htail⟩
      rw [removeMin_eq hlean hempty]
      exact balanced_fixUp_value (by simp) hbal hr

/-! ### `remove:` of a key below every entry

Nothing is removed, and rebalancing on the way back restores the colours.
The code makes such a call each time it has removed an inner entry. -/

section Remove

variable {cmp : κ → κ → Ordering} {aKey : κ}

theorem remove_empty : remove cmp aKey (.empty : FLLRBNode κ ν) = .empty := by
  rw [remove]
  rfl

theorem remove_of_lt {k k' : κ} {v v' : ν} {c c' : FLLRBColor} {l l' r r' : FLLRBNode κ ν}
    (h : cmp aKey k = .lt) (hlean : (value k v c l r).leanLeft = value k' v' c' l' r') :
    remove cmp aKey (value k v c l r) = fixUp (value k' v' c' (remove cmp aKey l') r') := by
  rw [remove]
  simp only [entry, h, ↓reduceIte]
  split <;> simp_all

theorem remove_of_ne {k k' : κ} {v v' : ν} {c c' : FLLRBColor} {l l' r r' : FLLRBNode κ ν}
    (h : cmp aKey k ≠ .lt) (hlean : (value k v c l r).leanRight = value k' v' c' l' r')
    (hne : cmp aKey k' ≠ .eq) :
    remove cmp aKey (value k v c l r) = fixUp (value k' v' c' l' (remove cmp aKey r')) := by
  rw [remove]
  simp only [entry, h, ↓reduceIte]
  split <;> simp_all

theorem remove_last {k k' : κ} {v v' : ν} {c c' : FLLRBColor} {l l' r : FLLRBNode κ ν}
    (h : cmp aKey k ≠ .lt) (hlean : (value k v c l r).leanRight = value k' v' c' l' .empty)
    (heq : cmp aKey k' = .eq) : remove cmp aKey (value k v c l r) = .empty := by
  rw [remove]
  simp only [entry, h, ↓reduceIte]
  split <;> simp_all

theorem remove_of_eq {k k' : κ} {v v' : ν} {c c' : FLLRBColor} {l l' r r' : FLLRBNode κ ν}
    (h : cmp aKey k ≠ .lt) (hlean : (value k v c l r).leanRight = value k' v' c' l' r')
    (heq : cmp aKey k' = .eq) (hr' : r'.isEmpty = false) :
    remove cmp aKey (value k v c l r) =
      fixUp ((value k' v' c' l' (remove cmp aKey r'.removeMin)).withEntry r'.min.entry) := by
  rw [remove]
  simp only [entry, h, ↓reduceIte]
  split <;> simp_all

theorem Balanced.inv {c : FLLRBColor} {n : Nat} {k : κ} {v : ν} {c' : FLLRBColor}
    {l r : FLLRBNode κ ν} (h : Balanced c n (value k v c' l r)) :
    c' = c ∧ ∃ cl m, n = m + colorDepth c ∧ (c = .red → cl = .black) ∧ Balanced cl m l ∧
      Balanced .black m r := by
  cases h with
  | red hl hr => exact ⟨rfl, .black, n, rfl, fun _ => rfl, hl, hr⟩
  | @black cl m _ _ _ _ hl hr => exact ⟨rfl, cl, m, rfl, by simp, hl, hr⟩

theorem below_left {cmp : κ → κ → Ordering} {aKey k : κ} {v : ν} {c : FLLRBColor}
    {l r : FLLRBNode κ ν} (h : Sorted.Below cmp aKey (value k v c l r).inorder) :
    Sorted.Below cmp aKey l.inorder :=
  fun e he => h e (by simp [inorder, he])

theorem remove_below {c : FLLRBColor} {n : Nat} {t : FLLRBNode κ ν} (h : Balanced c n t)
    (hbelow : Sorted.Below cmp aKey t.inorder) :
    Balanced c n (remove cmp aKey t) ∧ (remove cmp aKey t).inorder = t.inorder := by
  induction hN : t.count using Nat.strong_induction_on generalizing c n t with
  | _ N ih =>
    subst hN
    rcases t with _ | ⟨k, v, c₀, l, r⟩
    · rw [remove_empty]
      exact ⟨h, rfl⟩
    · have hlt : cmp aKey k = .lt := hbelow (k, v) (by simp [inorder])
      obtain ⟨rfl, cl, m, rfl, hc, hl, hr⟩ := h.inv
      cases hempty : l.isEmpty with
      | true =>
        obtain rfl := eq_empty_of_isEmpty hempty
        rw [remove_of_lt hlt (leanLeft_of_left_isEmpty rfl), remove_empty, fixUp_eq_self h]
        exact ⟨h, rfl⟩
      | false =>
        have hready : LeftReady c₀ m (value k v c₀ l r).leanLeft :=
          leftReady_leanLeft hc hl hr hempty
        generalize hlean : (value k v c₀ l r).leanLeft = t' at hready
        have hlist : t'.inorder = (value k v c₀ l r).inorder := hlean ▸ inorder_leanLeft _
        have hbelow' : Sorted.Below cmp aKey t'.inorder := hlist ▸ hbelow
        have hsmall : t'.count ≤ (value k v c₀ l r).count := hlean ▸ count_leanLeft_le _
        rw [← hlist]
        cases hready with
        | keep hc' hl' hr' =>
          obtain ⟨hbal, hinorder⟩ :=
            ih _ (count_child_lt hsmall).1 hl'.balanced (below_left hbelow') rfl
          rw [remove_of_lt hlt hlean]
          exact ⟨balanced_fixUp_value hc' hbal hr', by simp [inorder, hinorder]⟩
        | flip hm hl' hr' =>
          subst hm
          obtain ⟨hbal, hinorder⟩ :=
            ih _ (count_child_lt hsmall).1 hl' (below_left hbelow') rfl
          rw [remove_of_lt hlt hlean]
          refine ⟨?_, by simp [inorder, hinorder]⟩
          obtain ⟨l'', r'', heq, hl'', hr''⟩ := fixUp_both_red hbal hr' c₀.flip
          rw [heq]
          cases c₀ with
          | red => exact .red hl'' hr''
          | black => exact .black hl'' hr''

/-! ### `remove:` -/

/-- What deletion gives: the black depth stays, a black node stays black,
and the listed entries are those of the dictionary without the key. -/
def Removed (cmp : κ → κ → Ordering) (aKey : κ) (c : FLLRBColor) (n : Nat)
    (t result : FLLRBNode κ ν) : Prop :=
  (∃ c', (c = .black → c' = .black) ∧ Balanced c' n result) ∧
    result.inorder = Sorted.erase cmp aKey t.inorder

/-- The nodes on which `remove:` is called below the root. The last kind is
made by `moveRedRight` and is not a left-leaning tree: its right child is
red. The key to be removed is then not below that node. -/
inductive Ready (cmp : κ → κ → Ordering) (aKey : κ) : FLLRBColor → Nat → FLLRBNode κ ν → Prop
  | spare {c n t} : Spare c n t → Ready cmp aKey c n t
  | redRight {n k v l r} : cmp aKey k ≠ .lt → Balanced .black n l → Balanced .red n r →
      Ready cmp aKey .black (n + 1) (value k v .black l r)

/-- What `leanRight` makes of such a node of colour `c`. -/
inductive RightReady (cmp : κ → κ → Ordering) (aKey : κ) (c : FLLRBColor) :
    Nat → FLLRBNode κ ν → Prop
  | last {k v} : cmp aKey k ≠ .lt → c = .red →
      RightReady cmp aKey c 0 (value k v .red .empty .empty)
  | keep {n k v l r} : cmp aKey k ≠ .lt → c = .red → Balanced .black n l →
      Ready cmp aKey .black n r → (cmp aKey k = .eq → Spare .black n r) →
      RightReady cmp aKey c n (value k v .red l r)
  | lend {cl n k v l r} : cmp aKey k ≠ .lt → (c = .black → cl = .black) → Balanced cl n l →
      Balanced .red n r → RightReady cmp aKey c (n + 1) (value k v .black l r)

theorem gt_of_lt_of_not_lt [Std.TransCmp cmp] {k k' : κ} (h : cmp k' k = .lt)
    (hk : cmp aKey k ≠ .lt) : cmp aKey k' = .gt := by
  apply Std.OrientedCmp.gt_of_lt
  cases hc : cmp aKey k with
  | lt => exact (hk hc).elim
  | eq => exact Std.TransCmp.lt_of_lt_of_eq h (Std.OrientedCmp.eq_symm hc)
  | gt => exact Std.TransCmp.lt_trans h (Std.OrientedCmp.lt_of_gt hc)

theorem rightReady_leanRight [Std.TransCmp cmp] {c c₀ : FLLRBColor} {n : Nat} {k : κ} {v : ν}
    {l r : FLLRBNode κ ν} (h : Ready cmp aKey c n (value k v c₀ l r))
    (hasc : Sorted.Ascending cmp (value k v c₀ l r).inorder) (hk : cmp aKey k ≠ .lt) :
    RightReady cmp aKey c n (value k v c₀ l r).leanRight := by
  cases h with
  | redRight _ hl hr =>
    have hlean : (value k v .black l r).leanRight = value k v .black l r := by
      simp [leanRight, leanRotated, hl.isRed_eq, hr.isRed_eq]
    rw [hlean]
    exact .lend hk (fun _ => rfl) hl hr
  | spare h =>
    cases h with
    | redLeft hl hr =>
      cases hl with
      | @red _ lk lv ll lr hll hlr =>
        have hlean : (value k v .black (value lk lv .red ll lr) r).leanRight =
            value lk lv .black ll (value k v .red lr r) := by
          simp [leanRight, leanRotated, rotateRight]
        rw [hlean]
        have hroot : cmp lk k = .lt :=
          (Sorted.ascending_append.mp hasc).2.2.1 (lk, lv) (by simp [inorder])
        have hgt : cmp aKey lk = .gt := gt_of_lt_of_not_lt hroot hk
        exact .lend (by simp [hgt]) (fun _ => rfl) hll (.red hlr hr)
    | red hl hr =>
      cases hr with
      | empty =>
        obtain rfl := hl.eq_empty
        exact .last hk rfl
      | @black cr m rk rv rl rr hrl hrr =>
        cases cr with
        | red =>
          have hlean : (value k v .red l (value rk rv .black rl rr)).leanRight =
              value k v .red l (value rk rv .black rl rr) := by
            simp [leanRight, leanRotated, hl.isRed_eq, hrl.isRed_eq]
          rw [hlean]
          exact .keep hk rfl hl (.spare (.redLeft hrl hrr)) fun _ => .redLeft hrl hrr
        | black =>
          cases hl with
          | @black cl _ lk lv ll lr hll hlr =>
            cases cl with
            | black =>
              have hlean : (value k v .red (value lk lv .black ll lr)
                  (value rk rv .black rl rr)).leanRight =
                  value k v .black (value lk lv .red ll lr) (value rk rv .red rl rr) := by
                simp [leanRight, leanRotated, hrl.isRed_eq, moveRedRight, colorFlip, flipped,
                  FLLRBColor.flip, hll.isRed_eq]
              rw [hlean]
              exact .lend hk (by simp) (.red hll hlr) (.red hrl hrr)
            | red =>
              cases hll with
              | @red _ a b x y hx hy =>
                have hlean : (value k v .red (value lk lv .black (value a b .red x y) lr)
                    (value rk rv .black rl rr)).leanRight =
                    value lk lv .red (value a b .black x y)
                      (value k v .black lr (value rk rv .red rl rr)) := by
                  simp [leanRight, leanRotated, hrl.isRed_eq, moveRedRight, colorFlip, flipped,
                    FLLRBColor.flip, rotateRight]
                rw [hlean]
                -- the new root is below the old one, so it is not the removed entry
                have hroot : cmp lk k = .lt :=
                  (Sorted.ascending_append.mp hasc).2.2.1 (lk, lv) (by simp [inorder])
                have hgt : cmp aKey lk = .gt := gt_of_lt_of_not_lt hroot hk
                exact .keep (by simp [hgt]) rfl (.black hx hy) (.redRight hk hlr (.red hrl hrr))
                  (by simp [hgt])

/-! #### Entries -/

theorem min_entry (t : FLLRBNode κ ν) : t.min.entry = t.inorder.head? := by
  induction t with
  | empty => rfl
  | value k v c l r ihl _ =>
    rw [min, inorder]
    split
    · next h => simp [eq_empty_of_isEmpty h, entry, inorder]
    · next h =>
      have hne : l.inorder ≠ [] := by simpa [inorder_eq_nil_iff] using h
      rw [ihl, List.head?_append_of_ne_nil _ hne]

theorem inorder_withEntry_min {k : κ} {v : ν} {c : FLLRBColor} {l r r' : FLLRBNode κ ν}
    (hr : r.isEmpty = false) (h : r'.inorder = r.inorder.tail) :
    ((value k v c l r').withEntry r.min.entry).inorder = l.inorder ++ r.inorder := by
  rw [min_entry]
  cases hlist : r.inorder with
  | nil => simp [inorder_eq_nil_iff, hr] at hlist
  | cons e es => simp [withEntry, inorder, h, hlist]

section Entries

variable [Std.TransCmp cmp] {t l r : FLLRBNode κ ν} {k : κ} {v : ν} {c : FLLRBColor}

theorem ascending_left (h : Sorted.Ascending cmp (value k v c l r).inorder) :
    Sorted.Ascending cmp l.inorder :=
  (Sorted.ascending_append.mp h).1

theorem ascending_right (h : Sorted.Ascending cmp (value k v c l r).inorder) :
    Sorted.Ascending cmp r.inorder :=
  (Sorted.ascending_append.mp h).2.1

theorem erase_inorder_gt (h : Sorted.Ascending cmp (value k v c l r).inorder)
    (hk : cmp aKey k = .gt) : Sorted.erase cmp aKey (value k v c l r).inorder =
      l.inorder ++ (k, v) :: Sorted.erase cmp aKey r.inorder :=
  Sorted.erase_append_gt (Sorted.ascending_append.mp h).2.2.1 hk

theorem erase_inorder_eq (h : Sorted.Ascending cmp (value k v c l r).inorder)
    (hk : cmp aKey k = .eq) :
    Sorted.erase cmp aKey (value k v c l r).inorder = l.inorder ++ r.inorder :=
  Sorted.erase_append_eq (Sorted.ascending_append.mp h).2.2.1 hk

/-- The key is below what is left of the right subtree once its smallest
entry has taken the place of the removed one. -/
theorem below_tail (h : Sorted.Ascending cmp (value k v c l r).inorder)
    (hk : cmp aKey k = .eq) : Sorted.Below cmp aKey r.inorder.tail := by
  have hbelow : Sorted.Below cmp aKey r.inorder := (Sorted.ascending_append.mp h).2.2.2.congr hk
  exact fun e he => hbelow e (List.mem_of_mem_tail he)

end Entries

/-! #### Assembly -/

variable [Std.TransCmp cmp]

/-- Below a node that `leanRight` has prepared, deletion either goes into
the right subtree or replaces the root by the smallest entry there. -/
theorem remove_leanRight {k k' : κ} {v v' : ν} {c c' cr : FLLRBColor} {n : Nat}
    {l l' r r' : FLLRBNode κ ν} (hasc : Sorted.Ascending cmp (value k v c l r).inorder)
    (hk : cmp aKey k ≠ .lt) (hlean : (value k v c l r).leanRight = value k' v' c' l' r')
    (hk' : cmp aKey k' ≠ .lt) (hspare : cmp aKey k' = .eq → Spare cr n r')
    (hrec : Removed cmp aKey cr n r' (remove cmp aKey r')) :
    ∃ k'' v'' cr' r'', remove cmp aKey (value k v c l r) = fixUp (value k'' v'' c' l' r'') ∧
      (cr = .black → cr' = .black) ∧ Balanced cr' n r'' ∧
      l'.inorder ++ (k'', v'') :: r''.inorder =
        Sorted.erase cmp aKey (value k v c l r).inorder := by
  have hlist : (value k' v' c' l' r').inorder = (value k v c l r).inorder :=
    hlean ▸ inorder_leanRight _
  rw [← hlist] at hasc ⊢
  cases hc : cmp aKey k' with
  | lt => exact (hk' hc).elim
  | eq =>
    obtain ⟨⟨cr', hcr', hbal⟩, htail⟩ := removeMin_spec (hspare hc)
    have hbelow : Sorted.Below cmp aKey r'.removeMin.inorder := htail ▸ below_tail hasc hc
    obtain ⟨hbal', hinorder⟩ := remove_below hbal hbelow
    have hne : r'.isEmpty = false := (hspare hc).isEmpty
    rw [remove_of_eq hk hlean hc hne]
    have hentries := inorder_withEntry_min (k := k') (v := v') (c := c') (l := l') hne
      (hinorder.trans htail)
    rw [erase_inorder_eq hasc hc, ← hentries, min_entry]
    cases hhead : r'.inorder.head? with
    | none => exact ⟨k', v', cr', _, rfl, hcr', hbal', rfl⟩
    | some e => exact ⟨e.1, e.2, cr', _, rfl, hcr', hbal', rfl⟩
  | gt =>
    obtain ⟨⟨cr', hcr', hbal⟩, hinorder⟩ := hrec
    rw [remove_of_ne hk hlean (by simp [hc])]
    exact ⟨k', v', cr', _, rfl, hcr', hbal, by rw [erase_inorder_gt hasc hc, hinorder]⟩

theorem removed_right {k : κ} {v : ν} {c c₀ : FLLRBColor} {n : Nat} {l r : FLLRBNode κ ν}
    (h : Ready cmp aKey c n (value k v c₀ l r))
    (hasc : Sorted.Ascending cmp (value k v c₀ l r).inorder) (hk : cmp aKey k ≠ .lt)
    (ih : ∀ {c' n'} {t' : FLLRBNode κ ν}, t'.count < (value k v c₀ l r).count →
      Ready cmp aKey c' n' t' → Sorted.Ascending cmp t'.inorder →
      Removed cmp aKey c' n' t' (remove cmp aKey t')) :
    Removed cmp aKey c n (value k v c₀ l r) (remove cmp aKey (value k v c₀ l r)) := by
  have hready := rightReady_leanRight h hasc hk
  generalize hlean : (value k v c₀ l r).leanRight = t' at hready
  have hlist : t'.inorder = (value k v c₀ l r).inorder := hlean ▸ inorder_leanRight _
  have hsmall : t'.count ≤ (value k v c₀ l r).count := hlean ▸ count_leanRight_le _
  have hasc' : Sorted.Ascending cmp t'.inorder := hlist ▸ hasc
  cases hready with
  | @last k' v' hk' hc =>
    subst hc
    cases heq : cmp aKey k' with
    | lt => exact (hk' heq).elim
    | eq =>
      rw [remove_last hk hlean heq, Removed, ← hlist, erase_inorder_eq hasc' heq]
      exact ⟨⟨.black, by simp, .empty⟩, rfl⟩
    | gt =>
      rw [remove_of_ne hk hlean (by simp [heq]), remove_empty, Removed, ← hlist,
        erase_inorder_gt hasc' heq]
      exact ⟨⟨.red, by simp, balanced_fixUp_value (fun _ => rfl) .empty .empty⟩, by
        simp [inorder, Sorted.erase]⟩
  | keep hk' hc hl' hr' hspare =>
    subst hc
    have hrec := ih (count_child_lt hsmall).2 hr' (ascending_right hasc')
    obtain ⟨k'', v'', cr, r'', heq, hcr, hbal, hentries⟩ :=
      remove_leanRight hasc hk hlean hk' hspare hrec
    obtain rfl := hcr rfl
    rw [heq]
    exact ⟨⟨.red, by simp, balanced_fixUp_value (fun _ => rfl) hl' hbal⟩, by
      rw [inorder_fixUp, inorder, hentries]⟩
  | lend hk' hc hl' hr' =>
    have hrec := ih (count_child_lt hsmall).2 (.spare hr'.spare) (ascending_right hasc')
    obtain ⟨k'', v'', cr, r'', heq, -, hbal, hentries⟩ :=
      remove_leanRight hasc hk hlean hk' (fun _ => hr'.spare) hrec
    rw [heq]
    obtain ⟨c', hc', hfixed⟩ := balanced_fixUp_black (k := k'') (v := v'') hl' hbal
    exact ⟨⟨c', fun h => hc' (hc h), hfixed⟩, by rw [inorder_fixUp, inorder, hentries]⟩

/-- Going left, the root either stays or comes from the right subtree. -/
theorem root_leanLeft {k k' : κ} {v v' : ν} {c c' : FLLRBColor} {l r l' r' : FLLRBNode κ ν}
    (hlean : (value k v c l r).leanLeft = value k' v' c' l' r') :
    k' = k ∨ (k', v') ∈ r.inorder := by
  unfold leanLeft at hlean
  split at hlean
  · rcases r with _ | ⟨rk, rv, rc, _ | ⟨a, b, d, x, y⟩, rr⟩
    · simp_all [moveRedLeft, colorFlip, flipped]
    · simp_all [moveRedLeft, colorFlip, flipped]
    · cases d with
      | red =>
        simp only [moveRedLeft, colorFlip, flipped, right_value, left_value, isRed_red, ↓reduceIte,
          rotateRight, withRight, rotateLeft, value.injEq] at hlean
        simp [inorder, hlean]
      | black => simp_all [moveRedLeft, colorFlip, flipped]
  · simp_all

theorem removed_left {k : κ} {v : ν} {c c₀ : FLLRBColor} {n : Nat} {l r : FLLRBNode κ ν}
    (h : Spare c n (value k v c₀ l r))
    (hasc : Sorted.Ascending cmp (value k v c₀ l r).inorder) (hk : cmp aKey k = .lt)
    (ih : ∀ {c' n'} {t' : FLLRBNode κ ν}, t'.count < (value k v c₀ l r).count →
      Ready cmp aKey c' n' t' → Sorted.Ascending cmp t'.inorder →
      Removed cmp aKey c' n' t' (remove cmp aKey t')) :
    Removed cmp aKey c n (value k v c₀ l r) (remove cmp aKey (value k v c₀ l r)) := by
  -- the recursive call is on the left child that `leanLeft` leaves
  have hrec : ∀ {k' v' c' l' r' cl m}, (value k v c₀ l r).leanLeft = value k' v' c' l' r' →
      Spare cl m l' → remove cmp aKey (value k v c₀ l r) =
          fixUp (value k' v' c' (remove cmp aKey l') r') ∧
        (∃ cl', (cl = .black → cl' = .black) ∧ Balanced cl' m (remove cmp aKey l')) ∧
        (remove cmp aKey (value k v c₀ l r)).inorder =
          Sorted.erase cmp aKey (value k v c₀ l r).inorder := by
    intro k' v' c' l' r' cl m hlean hl'
    have hlist : (value k' v' c' l' r').inorder = (value k v c₀ l r).inorder :=
      hlean ▸ inorder_leanLeft _
    have hsmall : (value k' v' c' l' r').count ≤ (value k v c₀ l r).count :=
      hlean ▸ count_leanLeft_le _
    have hk' : cmp aKey k' = .lt := by
      rcases root_leanLeft hlean with rfl | hmem
      · exact hk
      · exact Std.TransCmp.lt_trans hk ((Sorted.ascending_append.mp hasc).2.2.2 _ hmem)
    obtain ⟨hbal, hentries⟩ := ih (count_child_lt hsmall).1 (.spare hl')
      (ascending_left (hlist ▸ hasc))
    refine ⟨remove_of_lt hk hlean, hbal, ?_⟩
    rw [remove_of_lt hk hlean, inorder_fixUp, inorder, hentries, ← hlist, inorder,
      Sorted.erase_append_lt hk']
  cases h with
  | red hl hr =>
    cases hempty : l.isEmpty with
    | true =>
      obtain rfl := eq_empty_of_isEmpty hempty
      have hbal : Balanced .red n (value k v .red (.empty : FLLRBNode κ ν) r) := .red hl hr
      rw [remove_of_lt hk (leanLeft_of_left_isEmpty rfl), remove_empty, fixUp_eq_self hbal]
      exact ⟨⟨.red, by simp, hbal⟩, by simp [inorder, Sorted.erase, hk]⟩
    | false =>
      have hready : LeftReady .red n (value k v .red l r).leanLeft :=
        leftReady_leanLeft (fun _ => rfl) hl hr hempty
      generalize hlean : (value k v .red l r).leanLeft = t' at hready
      cases hready with
      | keep hc hl' hr' =>
        obtain ⟨heq, ⟨cl', hcl', hbal⟩, hentries⟩ := hrec hlean hl'
        refine ⟨⟨.red, by simp, ?_⟩, hentries⟩
        rw [heq]
        exact balanced_fixUp_value (fun _ => hcl' (hc rfl)) hbal hr'
      | flip hn hl' hr' =>
        subst hn
        obtain ⟨heq, ⟨cl', -, hbal⟩, hentries⟩ := hrec hlean hl'.spare
        rw [Removed, hentries, heq]
        obtain ⟨c', -, hfixed⟩ := balanced_fixUp_black hbal hr'
        exact ⟨⟨c', by simp, hfixed⟩, rfl⟩
  | redLeft hl hr =>
    obtain ⟨heq, ⟨cl', -, hbal⟩, hentries⟩ :=
      hrec (leanLeft_of_left_isRed hl.isRed_eq) hl.spare
    refine ⟨⟨.black, fun _ => rfl, ?_⟩, hentries⟩
    rw [heq]
    exact balanced_fixUp_value (by simp) hbal hr

theorem removed_remove {c : FLLRBColor} {n : Nat} {t : FLLRBNode κ ν}
    (h : Ready cmp aKey c n t) (hasc : Sorted.Ascending cmp t.inorder) :
    Removed cmp aKey c n t (remove cmp aKey t) := by
  induction hN : t.count using Nat.strong_induction_on generalizing c n t with
  | _ N ih =>
    subst hN
    have hrec : ∀ {c' n'} {t' : FLLRBNode κ ν}, t'.count < t.count → Ready cmp aKey c' n' t' →
        Sorted.Ascending cmp t'.inorder → Removed cmp aKey c' n' t' (remove cmp aKey t') :=
      fun hlt h' hasc' => ih _ hlt h' hasc' rfl
    rcases t with _ | ⟨k, v, c₀, l, r⟩
    · cases h with
      | spare h => cases h
    · by_cases hk : cmp aKey k = .lt
      · cases h with
        | spare h => exact removed_left h hasc hk hrec
        | redRight hk' => exact (hk' hk).elim
      · exact removed_right h hasc hk hrec

end Remove

/-! ### The root

The root is black, and may have no red node to spare. Deletion looks at
the colours of the children only, so up to the colour of the root it does
what it does to the same tree with a red root. -/

section Root

theorem left_withColor (t : FLLRBNode κ ν) (c : FLLRBColor) : (t.withColor c).left = t.left := by
  cases t <;> rfl

theorem right_withColor (t : FLLRBNode κ ν) (c : FLLRBColor) :
    (t.withColor c).right = t.right := by
  cases t <;> rfl

theorem rotateLeft_withColor (t : FLLRBNode κ ν) (c : FLLRBColor) :
    (t.withColor c).rotateLeft = t.rotateLeft.withColor c := by
  rcases t with _ | ⟨_, _, _, _, _ | _⟩ <;> rfl

theorem rotateRight_withColor (t : FLLRBNode κ ν) (c : FLLRBColor) :
    (t.withColor c).rotateRight = t.rotateRight.withColor c := by
  rcases t with _ | ⟨_, _, _, _ | _, _⟩ <;> rfl

theorem colorFlip_withColor (t : FLLRBNode κ ν) (c : FLLRBColor) :
    (t.withColor c).colorFlip = t.colorFlip.withColor c.flip := by
  cases t <;> rfl

theorem withRight_withColor (t r : FLLRBNode κ ν) (c : FLLRBColor) :
    (t.withColor c).withRight r = (t.withRight r).withColor c := by
  cases t <;> rfl

theorem fixUp_withColor (t : FLLRBNode κ ν) (c : FLLRBColor) :
    ∃ c', (t.withColor c).fixUp = t.fixUp.withColor c' := by
  unfold fixUp
  simp only [left_withColor, right_withColor, rotateLeft_withColor, rotateRight_withColor,
    colorFlip_withColor, ← apply_ite (fun u : FLLRBNode κ ν => u.withColor c)]
  split_ifs <;> exact ⟨_, rfl⟩

theorem leanLeft_withColor (t : FLLRBNode κ ν) (c : FLLRBColor) :
    ∃ c', (t.withColor c).leanLeft = t.leanLeft.withColor c' := by
  simp only [leanLeft, moveRedLeft, left_withColor, right_withColor, colorFlip_withColor,
    withRight_withColor, rotateLeft_withColor]
  split_ifs <;> exact ⟨_, rfl⟩

theorem leanRight_withColor (t : FLLRBNode κ ν) (c : FLLRBColor) :
    ∃ c', (t.withColor c).leanRight = t.leanRight.withColor c' := by
  simp only [leanRight, leanRotated, moveRedRight, left_withColor, right_withColor,
    colorFlip_withColor, rotateRight_withColor,
    ← apply_ite (fun u : FLLRBNode κ ν => u.withColor c)]
  split_ifs <;> exact ⟨_, rfl⟩

theorem withColor_withColor (t : FLLRBNode κ ν) (c c' : FLLRBColor) :
    (t.withColor c).withColor c' = t.withColor c' := by
  cases t <;> rfl

/-- `fixUp` on two nodes that differ in their colour. -/
theorem fixUp_value_withColor (k : κ) (v : ν) (c c' : FLLRBColor) (l r : FLLRBNode κ ν) :
    (fixUp (value k v c l r)).withColor .black = (fixUp (value k v c' l r)).withColor .black := by
  obtain ⟨c'', h⟩ := fixUp_withColor (value k v c' l r) c
  rw [withColor] at h
  rw [h, withColor_withColor]

theorem remove_leanLeft_empty {cmp : κ → κ → Ordering} {aKey k : κ} {v : ν} {c : FLLRBColor}
    {l r : FLLRBNode κ ν} (h : cmp aKey k = .lt) (hlean : (value k v c l r).leanLeft = .empty) :
    remove cmp aKey (value k v c l r) = .empty := by
  rw [remove]
  simp only [entry, h, ↓reduceIte]
  split <;> simp_all

theorem remove_leanRight_empty {cmp : κ → κ → Ordering} {aKey k : κ} {v : ν} {c : FLLRBColor}
    {l r : FLLRBNode κ ν} (h : cmp aKey k ≠ .lt) (hlean : (value k v c l r).leanRight = .empty) :
    remove cmp aKey (value k v c l r) = .empty := by
  rw [remove]
  simp only [entry, h, ↓reduceIte]
  split <;> simp_all

theorem remove_withColor (cmp : κ → κ → Ordering) (aKey : κ) (t : FLLRBNode κ ν)
    (c : FLLRBColor) : (remove cmp aKey (t.withColor c)).withColor .black =
      (remove cmp aKey t).withColor .black := by
  rcases t with _ | ⟨k, v, c₀, l, r⟩
  · rfl
  · by_cases hk : cmp aKey k = .lt
    · obtain ⟨c', hc'⟩ := leanLeft_withColor (value k v c₀ l r) c
      rcases hlean : (value k v c₀ l r).leanLeft with _ | ⟨k', v', c₁, l', r'⟩
      · rw [hlean] at hc'
        rw [withColor] at hc' ⊢
        rw [remove_leanLeft_empty hk hlean, remove_leanLeft_empty hk hc']
      · rw [hlean] at hc'
        rw [withColor] at hc' ⊢
        rw [remove_of_lt hk hlean, remove_of_lt hk hc']
        exact fixUp_value_withColor ..
    · obtain ⟨c', hc'⟩ := leanRight_withColor (value k v c₀ l r) c
      rcases hlean : (value k v c₀ l r).leanRight with _ | ⟨k', v', c₁, l', r'⟩
      · rw [hlean] at hc'
        rw [withColor] at hc' ⊢
        rw [remove_leanRight_empty hk hlean, remove_leanRight_empty hk hc']
      · rw [hlean] at hc'
        rw [withColor] at hc' ⊢
        by_cases hk' : cmp aKey k' = .eq
        · cases hr' : r'.isEmpty with
          | true =>
            obtain rfl := eq_empty_of_isEmpty hr'
            rw [remove_last hk hlean hk', remove_last hk hc' hk']
          | false =>
            rw [remove_of_eq hk hlean hk' hr', remove_of_eq hk hc' hk' hr']
            rcases r'.min.entry with _ | e <;> exact fixUp_value_withColor ..
        · rw [remove_of_ne hk hlean hk', remove_of_ne hk hc' hk']
          exact fixUp_value_withColor ..

theorem Balanced.blacken {c : FLLRBColor} {n : Nat} {t : FLLRBNode κ ν} (h : Balanced c n t) :
    ∃ m, Balanced .black m (t.withColor .black) := by
  cases h with
  | empty => exact ⟨0, .empty⟩
  | red hl hr => exact ⟨_, .black hl hr⟩
  | black hl hr => exact ⟨_, .black hl hr⟩

variable {cmp : κ → κ → Ordering}

variable (cmp) in
theorem insertKey_root {n : Nat} {t : FLLRBNode κ ν} (h : Balanced .black n t) (aKey : κ)
    (aValue : ν) : ∃ m, Balanced .black m ((t.insertKey cmp aKey aValue).withColor .black) := by
  obtain ⟨c, hbal⟩ := (balanced_insertKey cmp aKey aValue h).1 rfl
  exact hbal.blacken

theorem inorder_insertKey [Std.TransCmp cmp] {t : FLLRBNode κ ν}
    (h : Sorted.Ascending cmp t.inorder) (aKey : κ) (aValue : ν) :
    (t.insertKey cmp aKey aValue).inorder = Sorted.insertKeeping cmp aKey aValue t.inorder := by
  induction t with
  | empty => rfl
  | value k v c l r ihl ihr =>
    obtain ⟨hl, hr, habove, -⟩ := Sorted.ascending_append.mp h
    rw [insertKey]
    split
    · next hc => rw [inorder_fixUp, inorder, ihl hl, inorder, Sorted.insertKeeping_append_lt hc]
    · next hc =>
      rw [inorder_fixUp, inorder, inorder, Sorted.insertKeeping_append_eq habove hc]
    · next hc =>
      rw [inorder_fixUp, inorder, ihr hr, inorder, Sorted.insertKeeping_append_gt habove hc]

/-- Deletion at a black root. -/
theorem remove_root [Std.TransCmp cmp] {n : Nat} {t : FLLRBNode κ ν}
    (h : Balanced .black n t) (hasc : Sorted.Ascending cmp t.inorder) (aKey : κ) :
    (∃ m, Balanced .black m ((remove cmp aKey t).withColor .black)) ∧
      ((remove cmp aKey t).withColor .black).inorder = Sorted.erase cmp aKey t.inorder := by
  cases h with
  | empty =>
    rw [remove_empty]
    exact ⟨⟨0, .empty⟩, rfl⟩
  | @black c n k v l r hl hr =>
    cases c with
    | red =>
      obtain ⟨⟨c', -, hbal⟩, hentries⟩ := removed_remove (.spare (.redLeft hl hr)) hasc
      exact ⟨hbal.blacken, by rw [inorder_withColor, hentries]⟩
    | black =>
      have hasc' : Sorted.Ascending cmp (value k v .red l r).inorder := hasc
      have hready : Ready cmp aKey .red n (value k v .red l r) := .spare (.red hl hr)
      obtain ⟨⟨c', -, hbal⟩, hentries⟩ := removed_remove hready hasc'
      have hpaint := remove_withColor cmp aKey (value k v .red l r) .black
      rw [withColor] at hpaint
      rw [hpaint]
      exact ⟨hbal.blacken, by rw [inorder_withColor, hentries]; rfl⟩

end Root

/-! ## The code's own checks -/

theorem Balanced.check {c : FLLRBColor} {n : Nat} {t : FLLRBNode κ ν} (h : Balanced c n t) :
    t.check = some n := by
  induction h with
  | empty => rfl
  | red hl hr ihl ihr => simp [FLLRBNode.check, ihl, ihr, hl.isRed_eq, hr.isRed_eq]
  | black hl hr ihl ihr => simp [FLLRBNode.check, ihl, ihr, hr.isRed_eq]

theorem checkMaxDepth_eq {t : FLLRBNode κ ν} (h : t.isEmpty = false) :
    t.checkMaxDepth = t.check.map fun blackDepth => decide (2 ^ blackDepth ≤ t.count + 1) := by
  cases t with
  | empty => cases h
  | value => rfl

theorem two_pow_le_count {c : FLLRBColor} {n : Nat} {t : FLLRBNode κ ν} (h : Balanced c n t) :
    2 ^ n ≤ t.count + 1 := by
  induction h with
  | empty => simp [count]
  | red _ _ ihl ihr =>
    simp only [count]
    omega
  | black _ _ ihl ihr =>
    simp only [count, Nat.pow_succ]
    omega

end FLLRBNode

end BetweenUS.FirebaseDatabase
