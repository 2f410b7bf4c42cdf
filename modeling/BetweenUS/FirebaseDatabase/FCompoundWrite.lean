/-
BetweenUS.FirebaseDatabase.FCompoundWrite — several writes at once
(`FCompoundWrite.m`): a tree whose values are the nodes that were written.

A write below a place that has a node goes into that node, a write above
it replaces it, so that no node of the tree lies below another. Applied to
a node, the writes of the tree are made one after the other, depth first;
a write of `.priority` waits until its siblings are done, and is dropped
if the node is then empty.
-/
import BetweenUS.FirebaseDatabase.FImmutableTree

namespace BetweenUS.FirebaseDatabase

open FKey (dotPriority)

structure FCompoundWrite (κ ν : Type) where
  writeTree : FImmutableTree κ (FNode κ ν)

namespace FCompoundWrite

variable {κ ν : Type}

def emptyWrite : FCompoundWrite κ ν := ⟨.initWithValue none⟩

def isEmpty (w : FCompoundWrite κ ν) : Bool := w.writeTree.isEmpty

def rootWrite (w : FCompoundWrite κ ν) : Option (FNode κ ν) := w.writeTree.value

/-- The arguments of the block of `enumerateWrites:`. -/
def enumerateWrites (w : FCompoundWrite κ ν) : List (FPath κ × FNode κ ν) := w.writeTree.forEach

variable [FKey κ] [DecidableEq κ]

def addWrite (w : FCompoundWrite κ ν) (node : FNode κ ν) (path : FPath κ) : FCompoundWrite κ ν :=
  if path = [] then ⟨.initWithValue (some node)⟩
  else
    match w.writeTree.findRootMostValueAndPath path with
    | some (rootPath, rootNode) =>
        -- the path that was found is on the way, so this does not throw
        let relativePath := (FPath.relativePathFrom rootPath path).getD []
        ⟨w.writeTree.setValue (rootNode.updateChild relativePath node) rootPath⟩
    | none => ⟨w.writeTree.setTree (.initWithValue (some node)) path⟩

def addCompoundWrite (w compoundWrite : FCompoundWrite κ ν) (path : FPath κ) : FCompoundWrite κ ν :=
  compoundWrite.enumerateWrites.foldl (fun newWrite e => newWrite.addWrite e.2 (path ++ e.1)) w

def removeWriteAtPath (w : FCompoundWrite κ ν) (path : FPath κ) : FCompoundWrite κ ν :=
  if path = [] then emptyWrite else ⟨w.writeTree.setTree .empty path⟩

def completeNodeAtPath (w : FCompoundWrite κ ν) (path : FPath κ) : Option (FNode κ ν) :=
  match w.writeTree.findRootMostValueAndPath path with
  | some (rootPath, rootNode) =>
      some (rootNode.getChild ((FPath.relativePathFrom rootPath path).getD []))
  | none => none

def hasCompleteWriteAtPath (w : FCompoundWrite κ ν) (path : FPath κ) : Bool :=
  (w.completeNodeAtPath path).isSome

def childCompoundWriteAtPath (w : FCompoundWrite κ ν) (path : FPath κ) : FCompoundWrite κ ν :=
  if path = [] then w
  else
    match w.completeNodeAtPath path with
    | some shadowingNode => ⟨.initWithValue (some shadowingNode)⟩
    | none => ⟨w.writeTree.subtreeAtPath path⟩

mutual

def applySubtreeWrite : FImmutableTree κ (FNode κ ν) → FPath κ → FNode κ ν → FNode κ ν
  | .node (some value) _, relativePath, node => node.updateChild relativePath value
  | .node none children, relativePath, node =>
      match applyChildWrites children relativePath (node, none) with
      | (blockNode, none) => blockNode
      | (blockNode, some priorityWrite) =>
          if (blockNode.getChild relativePath).isEmpty then blockNode
          else blockNode.updateChild (relativePath ++ [dotPriority]) priorityWrite

/-- The enumeration of the children, with `blockNode` and `priorityWrite`. -/
def applyChildWrites : List (κ × FImmutableTree κ (FNode κ ν)) → FPath κ →
    FNode κ ν × Option (FNode κ ν) → FNode κ ν × Option (FNode κ ν)
  | [], _, state => state
  | (childKey, childTree) :: rest, relativePath, (blockNode, priorityWrite) =>
      applyChildWrites rest relativePath
        (if childKey = dotPriority then (blockNode, childTree.value)
         else (applySubtreeWrite childTree (relativePath ++ [childKey]) blockNode, priorityWrite))

end

def applyToNode (w : FCompoundWrite κ ν) (node : FNode κ ν) : FNode κ ν :=
  applySubtreeWrite w.writeTree [] node

end FCompoundWrite

end BetweenUS.FirebaseDatabase
