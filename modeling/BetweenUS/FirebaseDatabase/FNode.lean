/-
BetweenUS.FirebaseDatabase.FNode — the nodes of the local database cache
(`FLeafNode.m`, `FChildrenNode.m`, `FEmptyNode.m`), and what reading and
writing along a path does to them.

A node holds a value or children, and may have a priority, which a path
reaches under the reserved key `.priority`. The children are the ascending
list that `FImmutableSortedDictionary` was shown to refine. The empty node
is the children node without children.

⚠️ Writing below a leaf turns it into a children node and drops its value;
writing an empty node below a leaf leaves it alone.
-/
import BetweenUS.FirebaseDatabase.FPath
import BetweenUS.Sorted.Dictionary

namespace BetweenUS.FirebaseDatabase

open Std (TransCmp LawfulEqCmp)

/-- The keys of a path: `keyComparator` orders the children of a node,
`stringComparator` those of an `FImmutableTree`, and one key is
`.priority`. -/
class FKey (κ : Type) where
  keyComparator : κ → κ → Ordering
  stringComparator : κ → κ → Ordering
  dotPriority : κ
  keyTrans : TransCmp keyComparator
  keyLawful : LawfulEqCmp keyComparator
  stringTrans : TransCmp stringComparator
  stringLawful : LawfulEqCmp stringComparator

open FKey (keyComparator stringComparator dotPriority)

section Instances

variable {κ : Type} [FKey κ]

instance : TransCmp (keyComparator : κ → κ → Ordering) := FKey.keyTrans
instance : LawfulEqCmp (keyComparator : κ → κ → Ordering) := FKey.keyLawful
instance : TransCmp (stringComparator : κ → κ → Ordering) := FKey.stringTrans
instance : LawfulEqCmp (stringComparator : κ → κ → Ordering) := FKey.stringLawful

end Instances

inductive FNode (κ ν : Type) where
  | leaf (value : ν) (priority : Option ν)
  | children (priority : Option ν) (entries : List (κ × FNode κ ν))

namespace FNode

variable {κ ν : Type}

/-! ## The code -/

def emptyNode : FNode κ ν := children none []

def isEmpty : FNode κ ν → Bool
  | leaf _ _ => false
  | children _ entries => entries.isEmpty

/-- A priority is an empty node or a leaf without a priority of its own. -/
def ofPriority : Option ν → FNode κ ν
  | none => emptyNode
  | some value => leaf value none

def getPriority : FNode κ ν → FNode κ ν
  | leaf _ priority => ofPriority priority
  | children priority _ => ofPriority priority

def toPriority : FNode κ ν → Option ν
  | leaf value _ => some value
  | children _ _ => none

def updatePriority : FNode κ ν → FNode κ ν → FNode κ ν
  | leaf value _, aPriority => leaf value aPriority.toPriority
  | children _ [], _ => emptyNode
  | children _ (e :: entries), aPriority => children aPriority.toPriority (e :: entries)

variable [FKey κ] [DecidableEq κ]

def getImmediateChild : FNode κ ν → κ → FNode κ ν
  | leaf value priority, childName =>
      if childName = dotPriority then getPriority (leaf value priority : FNode κ ν) else emptyNode
  | children priority entries, childName =>
      if childName = dotPriority then ofPriority priority
      else (Sorted.get keyComparator entries childName).getD emptyNode

def getChild : FNode κ ν → FPath κ → FNode κ ν
  | node, [] => node
  | leaf value priority, front :: _ =>
      if front = dotPriority then getPriority (leaf value priority : FNode κ ν) else emptyNode
  | children priority entries, front :: rest =>
      (getImmediateChild (children priority entries) front).getChild rest

/-- The children node after one of its children was set or removed. -/
def ofChildren (priority : Option ν) : List (κ × FNode κ ν) → FNode κ ν
  | [] => emptyNode
  | e :: entries => children priority (e :: entries)

def updateImmediateChild : FNode κ ν → κ → FNode κ ν → FNode κ ν
  | leaf value priority, childName, newChildNode =>
      if childName = dotPriority then updatePriority (leaf value priority) newChildNode
      else if newChildNode.isEmpty then leaf value priority
      else updatePriority (children none [(childName, newChildNode)]) (ofPriority priority)
  | children priority entries, childName, newChildNode =>
      if childName = dotPriority then updatePriority (children priority entries) newChildNode
      else if newChildNode.isEmpty then
        ofChildren priority (Sorted.erase keyComparator childName entries)
      else ofChildren priority (Sorted.insert keyComparator childName newChildNode entries)

def updateChild : FNode κ ν → FPath κ → FNode κ ν → FNode κ ν
  | _, [], newChildNode => newChildNode
  | leaf value priority, front :: rest, newChildNode =>
      if newChildNode.isEmpty ∧ front ≠ dotPriority then leaf value priority
      else
        updateImmediateChild (leaf value priority) front (emptyNode.updateChild rest newChildNode)
  | children priority entries, front :: rest, newChildNode =>
      updateImmediateChild (children priority entries) front
        ((getImmediateChild (children priority entries) front).updateChild rest newChildNode)

@[simp] theorem getChild_nil (n : FNode κ ν) : n.getChild [] = n := by
  cases n <;> rfl

@[simp] theorem updateChild_nil (n new : FNode κ ν) : n.updateChild [] new = new := by
  cases n <;> rfl

/-! ## Well-formed nodes -/

/-- The children are in order and not empty, and an empty node has no
priority. -/
inductive WF : FNode κ ν → Prop
  | leaf (value priority) : WF (leaf value priority)
  | empty : WF emptyNode
  | children (priority e entries) : Sorted.Ascending keyComparator (e :: entries) →
      (∀ x ∈ e :: entries, WF x.2) → (∀ x ∈ e :: entries, x.2.isEmpty = false) →
      WF (children priority (e :: entries))

omit [DecidableEq κ] in
theorem WF.eq_emptyNode {n : FNode κ ν} (h : WF n) (hempty : n.isEmpty = true) :
    n = emptyNode := by
  cases h with
  | leaf => cases hempty
  | empty => rfl
  | children => cases hempty

omit [FKey κ] [DecidableEq κ] in
@[simp] theorem isEmpty_emptyNode : (emptyNode : FNode κ ν).isEmpty = true := rfl

end FNode

end BetweenUS.FirebaseDatabase
