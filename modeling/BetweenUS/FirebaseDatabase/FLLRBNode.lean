/-
BetweenUS.FirebaseDatabase.FLLRBNode — the left-leaning red-black tree
under every node of the local database cache (`FLLRBValueNode.m`,
`FLLRBEmptyNode.m`).

A message to nil answers nil or NO. So the accessors of the empty node
answer the empty node again, and `copyWith:` on it gives it back. That
makes a rotation whose pivot is missing return the empty node, and it is
why the deletion below is right only on a balanced tree: `removeMin`
drops the right subtree of the node it removes, and `remove:` drops the
left one.
-/
import Mathlib.Algebra.Order.Ring.Nat

namespace BetweenUS.FirebaseDatabase

/-- `RED` and `BLACK`, the two boolean numbers of `FLLRBNode.h`. -/
inductive FLLRBColor where
  | red
  | black
deriving DecidableEq, Repr

def FLLRBColor.flip : FLLRBColor → FLLRBColor
  | .red => .black
  | .black => .red

inductive FLLRBNode (κ ν : Type) where
  | empty
  | value (key : κ) (value : ν) (color : FLLRBColor) (left right : FLLRBNode κ ν)
deriving DecidableEq, Repr

namespace FLLRBNode

variable {κ ν : Type}

/-! ## Reading a node -/

def isEmpty : FLLRBNode κ ν → Bool
  | empty => true
  | value .. => false

def isRed : FLLRBNode κ ν → Bool
  | value _ _ .red _ _ => true
  | _ => false

def left : FLLRBNode κ ν → FLLRBNode κ ν
  | empty => empty
  | value _ _ _ l _ => l

def right : FLLRBNode κ ν → FLLRBNode κ ν
  | empty => empty
  | value _ _ _ _ r => r

section Accessors

variable (k : κ) (v : ν) (c : FLLRBColor) (l r : FLLRBNode κ ν)

@[simp] theorem isEmpty_empty : (empty : FLLRBNode κ ν).isEmpty = true := rfl
@[simp] theorem isEmpty_value : (value k v c l r).isEmpty = false := rfl
@[simp] theorem isRed_empty : (empty : FLLRBNode κ ν).isRed = false := rfl
@[simp] theorem isRed_red : (value k v .red l r).isRed = true := rfl
@[simp] theorem isRed_black : (value k v .black l r).isRed = false := rfl
@[simp] theorem left_empty : (empty : FLLRBNode κ ν).left = empty := rfl
@[simp] theorem left_value : (value k v c l r).left = l := rfl
@[simp] theorem right_empty : (empty : FLLRBNode κ ν).right = empty := rfl
@[simp] theorem right_value : (value k v c l r).right = r := rfl

end Accessors

/-- The key and the value of a node; both are nil on the empty node. -/
def entry : FLLRBNode κ ν → Option (κ × ν)
  | empty => none
  | value k v _ _ _ => some (k, v)

def count : FLLRBNode κ ν → Nat
  | empty => 0
  | value _ _ _ l r => l.count + 1 + r.count

/-- What `inorderTraversal:` hands to an action that never stops it. -/
def inorder : FLLRBNode κ ν → List (κ × ν)
  | empty => []
  | value k v _ l r => l.inorder ++ (k, v) :: r.inorder

/-- What `reverseTraversal:` hands to an action that never stops it. -/
def reverseorder : FLLRBNode κ ν → List (κ × ν)
  | empty => []
  | value k v _ l r => r.reverseorder ++ (k, v) :: l.reverseorder

def min : FLLRBNode κ ν → FLLRBNode κ ν
  | empty => empty
  | value k v c l r => if l.isEmpty then value k v c l r else l.min

def minKey (n : FLLRBNode κ ν) : Option κ := n.min.entry.map Prod.fst

def maxKey : FLLRBNode κ ν → Option κ
  | empty => none
  | value k _ _ _ r => if r.isEmpty then some k else r.maxKey

/-! ## `copyWith:` -/

def withColor : FLLRBNode κ ν → FLLRBColor → FLLRBNode κ ν
  | empty, _ => empty
  | value k v _ l r, c => value k v c l r

/-- A nil key or value keeps the node's own. -/
def withEntry : FLLRBNode κ ν → Option (κ × ν) → FLLRBNode κ ν
  | value _ _ c l r, some (k, v) => value k v c l r
  | n, _ => n

def withRight : FLLRBNode κ ν → FLLRBNode κ ν → FLLRBNode κ ν
  | empty, _ => empty
  | value k v c l _, r => value k v c l r

/-! ## Rotations -/

def rotateLeft : FLLRBNode κ ν → FLLRBNode κ ν
  | value k v c l (value rk rv _ rl rr) => value rk rv c (value k v .red l rl) rr
  | _ => empty

def rotateRight : FLLRBNode κ ν → FLLRBNode κ ν
  | value k v c (value lk lv _ ll lr) r => value lk lv c ll (value k v .red lr r)
  | _ => empty

/-- The copy that `colorFlip` makes of a child. -/
def flipped : FLLRBNode κ ν → FLLRBNode κ ν
  | empty => empty
  | value k v c l r => value k v c.flip l r

def colorFlip : FLLRBNode κ ν → FLLRBNode κ ν
  | empty => empty
  | value k v c l r => value k v c.flip l.flipped r.flipped

def fixUp (n : FLLRBNode κ ν) : FLLRBNode κ ν :=
  let n := if n.right.isRed && !n.left.isRed then n.rotateLeft else n
  let n := if n.left.isRed && n.left.left.isRed then n.rotateRight else n
  if n.left.isRed && n.right.isRed then n.colorFlip else n

def moveRedLeft (n : FLLRBNode κ ν) : FLLRBNode κ ν :=
  let n := n.colorFlip
  if n.right.left.isRed then
    ((n.withRight n.right.rotateRight).rotateLeft).colorFlip
  else n

def moveRedRight (n : FLLRBNode κ ν) : FLLRBNode κ ν :=
  let n := n.colorFlip
  if n.left.left.isRed then n.rotateRight.colorFlip else n

/-! ## Insertion -/

def insertKey (cmp : κ → κ → Ordering) (aKey : κ) (aValue : ν) : FLLRBNode κ ν → FLLRBNode κ ν
  | empty => value aKey aValue .red empty empty
  | value k v c l r =>
      match cmp aKey k with
      | .lt => fixUp (value k v c (insertKey cmp aKey aValue l) r)
      | .eq => fixUp (value k aValue c l r)
      | .gt => fixUp (value k v c l (insertKey cmp aKey aValue r))

/-! ## Deletion

The recursive calls are on subtrees of a rotated node. Rotations and
colour flips never add an entry, so the number of entries falls. -/

theorem count_flipped (n : FLLRBNode κ ν) : n.flipped.count = n.count := by
  cases n <;> rfl

theorem count_colorFlip (n : FLLRBNode κ ν) : n.colorFlip.count = n.count := by
  cases n <;> simp [colorFlip, count, count_flipped]

theorem count_rotateLeft_le (n : FLLRBNode κ ν) : n.rotateLeft.count ≤ n.count := by
  fun_cases rotateLeft n <;> simp only [count] <;> omega

theorem count_rotateRight_le (n : FLLRBNode κ ν) : n.rotateRight.count ≤ n.count := by
  fun_cases rotateRight n <;> simp only [count] <;> omega

theorem count_withRight_le {n r : FLLRBNode κ ν} (h : r.count ≤ n.right.count) :
    (n.withRight r).count ≤ n.count := by
  cases n with
  | empty => exact Nat.le_refl _
  | value k v c l r' =>
    simp only [right] at h
    simp only [withRight, count]
    omega

theorem count_moveRedLeft_le (n : FLLRBNode κ ν) : n.moveRedLeft.count ≤ n.count := by
  unfold moveRedLeft
  dsimp only
  split
  · rw [count_colorFlip]
    calc _ ≤ (n.colorFlip.withRight n.colorFlip.right.rotateRight).count :=
          count_rotateLeft_le _
      _ ≤ n.colorFlip.count := count_withRight_le (count_rotateRight_le _)
      _ = n.count := count_colorFlip n
  · exact Nat.le_of_eq (count_colorFlip n)

theorem count_moveRedRight_le (n : FLLRBNode κ ν) : n.moveRedRight.count ≤ n.count := by
  unfold moveRedRight
  dsimp only
  split
  · rw [count_colorFlip, ← count_colorFlip n]
    exact count_rotateRight_le _
  · exact Nat.le_of_eq (count_colorFlip n)

/-- The node on which `remove:` goes left. `removeMin` has returned before
when the left child is empty, and tests the same two colours. -/
def leanLeft (n : FLLRBNode κ ν) : FLLRBNode κ ν :=
  if !n.left.isEmpty && !n.left.isRed && !n.left.left.isRed then n.moveRedLeft else n

/-- The first of the two moves of `remove:` before it goes right. -/
def leanRotated (n : FLLRBNode κ ν) : FLLRBNode κ ν :=
  if n.left.isRed then n.rotateRight else n

/-- The node on which `remove:` goes right or removes the entry itself. -/
def leanRight (n : FLLRBNode κ ν) : FLLRBNode κ ν :=
  let n := n.leanRotated
  if !n.right.isEmpty && !n.right.isRed && !n.right.left.isRed then n.moveRedRight else n

theorem count_leanLeft_le (n : FLLRBNode κ ν) : n.leanLeft.count ≤ n.count := by
  unfold leanLeft
  split
  · exact count_moveRedLeft_le n
  · exact Nat.le_refl _

theorem count_leanRotated_le (n : FLLRBNode κ ν) : n.leanRotated.count ≤ n.count := by
  unfold leanRotated
  split
  · exact count_rotateRight_le n
  · exact Nat.le_refl _

theorem count_leanRight_le (n : FLLRBNode κ ν) : n.leanRight.count ≤ n.count := by
  unfold leanRight
  dsimp only
  split
  · exact Nat.le_trans (count_moveRedRight_le _) (count_leanRotated_le n)
  · exact count_leanRotated_le n

theorem count_fixUp_le (n : FLLRBNode κ ν) : n.fixUp.count ≤ n.count := by
  have hl : (if n.right.isRed && !n.left.isRed then n.rotateLeft else n).count ≤ n.count := by
    split
    · exact count_rotateLeft_le n
    · exact Nat.le_refl _
  unfold fixUp
  extract_lets m p
  have hp : p.count ≤ m.count := by
    unfold p
    split
    · exact count_rotateRight_le m
    · exact Nat.le_refl _
  split
  · rw [count_colorFlip]
    exact Nat.le_trans hp hl
  · exact Nat.le_trans hp hl

/-- A subtree of a node that is no larger than `n` is smaller than `n`. -/
theorem count_child_lt {n l r : FLLRBNode κ ν} {k : κ} {v : ν} {c : FLLRBColor}
    (h : (value k v c l r).count ≤ n.count) : l.count < n.count ∧ r.count < n.count := by
  simp only [count] at h
  omega

def removeMin (n : FLLRBNode κ ν) : FLLRBNode κ ν :=
  if n.left.isEmpty then empty
  else
    match _h : n.leanLeft with
    | empty => empty
    | value k v c l r => fixUp (value k v c (removeMin l) r)
termination_by n.count
decreasing_by
  exact (count_child_lt (_h ▸ count_leanLeft_le n)).1

theorem count_removeMin_le (n : FLLRBNode κ ν) : n.removeMin.count ≤ n.count := by
  fun_induction removeMin n with
  | case1 n => exact Nat.zero_le _
  | case2 n => exact Nat.zero_le _
  | case3 n _ k v c l r h ih =>
    have hle : (value k v c l r).count ≤ n.count := h ▸ count_leanLeft_le n
    refine Nat.le_trans (count_fixUp_le _) (Nat.le_trans ?_ hle)
    simp only [count]
    omega

/-- After it has put the smallest entry of the right subtree in the place
of the removed one, the code still calls `remove:` on the right subtree. -/
def remove (cmp : κ → κ → Ordering) (aKey : κ) (n : FLLRBNode κ ν) : FLLRBNode κ ν :=
  match n.entry with
  | none => empty
  | some (key, _) =>
    if cmp aKey key = .lt then
      match _h : n.leanLeft with
      | empty => empty
      | value k v c l r => fixUp (value k v c (remove cmp aKey l) r)
    else
      match _h : n.leanRight with
      | empty => empty
      | value k v c l r =>
          if cmp aKey k = .eq then
            if r.isEmpty then empty
            else fixUp ((value k v c l (remove cmp aKey r.removeMin)).withEntry r.min.entry)
          else fixUp (value k v c l (remove cmp aKey r))
termination_by n.count
decreasing_by
  · exact (count_child_lt (_h ▸ count_leanLeft_le n)).1
  · exact Nat.lt_of_le_of_lt (count_removeMin_le r)
      (count_child_lt (_h ▸ count_leanRight_le n)).2
  · exact (count_child_lt (_h ▸ count_leanRight_le n)).2

/-! ## The code's own invariant checks -/

/-- The black depth, or none where `check` raises an exception. -/
def check : FLLRBNode κ ν → Option Nat
  | empty => some 0
  | value _ _ c l r =>
      if c = .red && l.isRed then none
      else if r.isRed then none
      else
        match l.check, r.check with
        | some blackDepth, some rightDepth =>
            if blackDepth = rightDepth then
              some (blackDepth + if c = .red then 0 else 1)
            else none
        | _, _ => none

/-- Only `FLLRBValueNode` has this method: the empty node raises. -/
def checkMaxDepth : FLLRBNode κ ν → Option Bool
  | empty => none
  | n@(value _ _ _ _ _) => n.check.map fun blackDepth => decide (2 ^ blackDepth ≤ n.count + 1)

end FLLRBNode

end BetweenUS.FirebaseDatabase
