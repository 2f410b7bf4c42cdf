/-
BetweenUS.FirebaseDatabase.FImmutableTree — values at places of a tree
(`FImmutableTree.m`).

A tree has a value or none, and children in the order of
`stringComparator`. The searches that take a block are modelled with the
block that every caller of the write tree passes, `YES`.

⚠️ `setValue` adds the places on the way, and only `setTree` drops a child
that became empty.
-/
import BetweenUS.FirebaseDatabase.FNode

namespace BetweenUS.FirebaseDatabase

open FKey (stringComparator)

inductive FImmutableTree (κ α : Type) where
  | node (value : Option α) (children : List (κ × FImmutableTree κ α))

namespace FImmutableTree

variable {κ α : Type}

/-! ## The code -/

def value : FImmutableTree κ α → Option α
  | node value _ => value

def children : FImmutableTree κ α → List (κ × FImmutableTree κ α)
  | node _ children => children

def empty : FImmutableTree κ α := node none []

def initWithValue (aValue : Option α) : FImmutableTree κ α := node aValue []

def isEmpty (t : FImmutableTree κ α) : Bool := t.value.isNone && t.children.isEmpty

mutual

/-- `forEachPathSoFar:withBlock:`, as the list of the block's arguments. -/
def forEachPathSoFar : FImmutableTree κ α → FPath κ → List (FPath κ × α)
  | node value children, pathSoFar =>
      forEachChildPathSoFar children pathSoFar ++ value.toList.map fun v => (pathSoFar, v)

/-- Its loop over the children. -/
def forEachChildPathSoFar : List (κ × FImmutableTree κ α) → FPath κ → List (FPath κ × α)
  | [], _ => []
  | (childKey, childTree) :: rest, pathSoFar =>
      forEachPathSoFar childTree (pathSoFar ++ [childKey]) ++ forEachChildPathSoFar rest pathSoFar

end

def forEach (t : FImmutableTree κ α) : List (FPath κ × α) := t.forEachPathSoFar []

variable [FKey κ]

/-- `[self.children get:front]` -/
def getChild? (t : FImmutableTree κ α) (front : κ) : Option (FImmutableTree κ α) :=
  Sorted.get stringComparator t.children front

/-- The same, and the empty tree where there is none. -/
def child (t : FImmutableTree κ α) (front : κ) : FImmutableTree κ α :=
  (t.getChild? front).getD empty

def valueAtPath : FImmutableTree κ α → FPath κ → Option α
  | t, [] => t.value
  | t, front :: rest =>
      match t.getChild? front with
      | some child => child.valueAtPath rest
      | none => none

def findRootMostValueAndPath : FImmutableTree κ α → FPath κ → Option (FPath κ × α)
  | t, relativePath =>
      match t.value with
      | some v => some ([], v)
      | none =>
          match relativePath with
          | [] => none
          | front :: rest =>
              match t.getChild? front with
              | some child =>
                  (child.findRootMostValueAndPath rest).map fun pv => (front :: pv.1, pv.2)
              | none => none

def subtreeAtPath : FImmutableTree κ α → FPath κ → FImmutableTree κ α
  | t, [] => t
  | t, front :: rest =>
      match t.getChild? front with
      | some childTree => childTree.subtreeAtPath rest
      | none => empty

def setValue (newValue : α) : FImmutableTree κ α → FPath κ → FImmutableTree κ α
  | t, [] => node (some newValue) t.children
  | t, front :: rest =>
      node t.value (Sorted.insert stringComparator front
        (setValue newValue (t.child front) rest) t.children)

/-- The children after `newChild` took the place of the child at `front`. -/
def replaceChild (children : List (κ × FImmutableTree κ α)) (front : κ)
    (newChild : FImmutableTree κ α) : List (κ × FImmutableTree κ α) :=
  if newChild.isEmpty then Sorted.erase stringComparator front children
  else Sorted.insert stringComparator front newChild children

def setTree : FImmutableTree κ α → FImmutableTree κ α → FPath κ → FImmutableTree κ α
  | _, newTree, [] => newTree
  | t, newTree, front :: rest =>
      node t.value (replaceChild t.children front ((t.child front).setTree newTree rest))

/-! ## Good trees -/

/-- The children are in order, and none of them is empty. -/
inductive Good : FImmutableTree κ α → Prop
  | node (value children) : Sorted.Ascending stringComparator children →
      (∀ x ∈ children, Good x.2) → (∀ x ∈ children, x.2.isEmpty = false) →
      Good (node value children)

end FImmutableTree

end BetweenUS.FirebaseDatabase
