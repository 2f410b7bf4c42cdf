/-
BetweenUS.FirebaseDatabase.FWriteTree — the writes that the server has not
settled yet (`FWriteTree.m`, `FWriteRecord.m`), and what the client shows
under them.

`allWrites` lists the pending writes, oldest first. `visibleWrites` is the
same laid into one compound write, kept up to date as writes come and go:
a write is added at once, and a settled write is removed in one of three
ways. A later write that covers it has hidden it already; no other write
below its place, and the place is erased; otherwise the tree is built again
from `allWrites`.

⚠️ `defaultFilter` is documented to keep what is visible and keeps
everything, so that a rebuilt tree shows the hidden writes too.
⚠️ Only writes below the removed place make the tree be built again: one
above it has taken the removed write into its own node, and keeps it.
⚠️ For a merge above the place `layerTreeFromWrites` descends twice, to the
place and then again without its first piece.

The assertions are modelled: `none` where the source stops.
-/
import BetweenUS.FirebaseDatabase.FCompoundWrite

namespace BetweenUS.FirebaseDatabase

/-- The node of an overwrite or the compound write of a merge. -/
inductive FWrite (κ ν : Type) where
  | overwrite (overwrite : FNode κ ν)
  | merge (merge : FCompoundWrite κ ν)

structure FWriteRecord (κ ν : Type) where
  writeId : Int
  path : FPath κ
  write : FWrite κ ν
  visible : Bool

/-- The single writes of a record, with their places. -/
def FWriteRecord.writes {κ ν : Type} (record : FWriteRecord κ ν) : List (FPath κ × FNode κ ν) :=
  match record.write with
  | .overwrite node => [(record.path, node)]
  | .merge merge => merge.enumerateWrites.map fun e => (record.path ++ e.1, e.2)

structure FWriteTree (κ ν : Type) where
  visibleWrites : FCompoundWrite κ ν
  allWrites : List (FWriteRecord κ ν)
  lastWriteId : Int

namespace FWriteTree

variable {κ ν : Type}

def init : FWriteTree κ ν := ⟨.emptyWrite, [], -1⟩

variable [FKey κ] [DecidableEq κ]

def addOverwriteAtPath (t : FWriteTree κ ν) (path : FPath κ) (newData : FNode κ ν) (writeId : Int)
    (visible : Bool) : Option (FWriteTree κ ν) :=
  if t.lastWriteId < writeId then
    some { visibleWrites :=
             if visible then t.visibleWrites.addWrite newData path else t.visibleWrites
           allWrites := t.allWrites ++ [⟨writeId, path, .overwrite newData, visible⟩]
           lastWriteId := writeId }
  else none

def addMergeAtPath (t : FWriteTree κ ν) (path : FPath κ) (changedChildren : FCompoundWrite κ ν)
    (writeId : Int) : Option (FWriteTree κ ν) :=
  if t.lastWriteId < writeId then
    some { visibleWrites := t.visibleWrites.addCompoundWrite changedChildren path
           allWrites := t.allWrites ++ [⟨writeId, path, .merge changedChildren, true⟩]
           lastWriteId := writeId }
  else none

/-- `record:containsPath:` -/
def recordContainsPath (record : FWriteRecord κ ν) (path : FPath κ) : Bool :=
  match record.write with
  | .overwrite _ => FPath.contains record.path path
  | .merge merge => merge.enumerateWrites.any fun e => FPath.contains (record.path ++ e.1) path

/-- The loop of `removeWriteId:` over the remaining writes, from the last
one down: whether the removed write was visible, and whether it overlaps. -/
def removalLoop (writeToRemove : FWriteRecord κ ν) (index : Nat) :
    List (FWriteRecord κ ν × Nat) → Bool × Bool → Bool × Bool
  | [], state => state
  | (currentWrite, i) :: rest, (wasVisible, overlaps) =>
      if wasVisible then
        removalLoop writeToRemove index rest
          (if currentWrite.visible then
            if index ≤ i ∧ recordContainsPath currentWrite writeToRemove.path then (false, overlaps)
            else if FPath.contains writeToRemove.path currentWrite.path then (wasVisible, true)
            else (wasVisible, overlaps)
           else (wasVisible, overlaps))
      else (wasVisible, overlaps)

/-- The block of `layerTreeFromWrites:filter:treeRoot:`, for a record that
passed the filter. -/
def layerRecord (treeRoot : FPath κ) (compoundWrite : FCompoundWrite κ ν)
    (record : FWriteRecord κ ν) : FCompoundWrite κ ν :=
  match record.write with
  | .overwrite overwrite =>
      if FPath.contains treeRoot record.path then
        compoundWrite.addWrite overwrite ((FPath.relativePathFrom treeRoot record.path).getD [])
      else if FPath.contains record.path treeRoot then
        compoundWrite.addWrite
          (overwrite.getChild ((FPath.relativePathFrom record.path treeRoot).getD [])) []
      else compoundWrite
  | .merge merge =>
      if FPath.contains treeRoot record.path then
        compoundWrite.addCompoundWrite merge
          ((FPath.relativePathFrom treeRoot record.path).getD [])
      else if FPath.contains record.path treeRoot then
        match (FPath.relativePathFrom record.path treeRoot).getD [] with
        | [] => compoundWrite.addCompoundWrite merge []
        | front :: rest =>
            match merge.completeNodeAtPath (front :: rest) with
            | some child => compoundWrite.addWrite (child.getChild rest) []
            | none => compoundWrite
      else compoundWrite

def layerTreeFromWrites (writes : List (FWriteRecord κ ν)) (filter : FWriteRecord κ ν → Bool)
    (treeRoot : FPath κ) : FCompoundWrite κ ν :=
  writes.foldl (fun compoundWrite record =>
    if filter record then layerRecord treeRoot compoundWrite record else compoundWrite) .emptyWrite

def defaultFilter (_ : FWriteRecord κ ν) : Bool := true

def resetTree (t : FWriteTree κ ν) : FWriteTree κ ν :=
  { t with visibleWrites := layerTreeFromWrites t.allWrites defaultFilter []
           lastWriteId :=
             match t.allWrites.getLast? with
             | some lastRecord => lastRecord.writeId
             | none => -1 }

/-- What `removeWriteId:` does after the loop, and its answer. -/
def finishRemoval (t : FWriteTree κ ν) (writeToRemove : FWriteRecord κ ν) :
    Bool × Bool → FWriteTree κ ν × Bool
  | (false, _) => (t, false)
  | (true, true) => (t.resetTree, true)
  | (true, false) =>
      let places := writeToRemove.writes.map Prod.fst
      let visibleWrites := places.foldl FCompoundWrite.removeWriteAtPath t.visibleWrites
      ({ t with visibleWrites := visibleWrites }, true)

/-- `removeWriteId:`, with its answer whether the write may have been
visible. -/
def removeWriteId (t : FWriteTree κ ν) (writeId : Int) : Option (FWriteTree κ ν × Bool) :=
  match t.allWrites.findIdx? fun record => record.writeId = writeId with
  | none => none
  | some index =>
      match t.allWrites[index]? with
      | none => none
      | some writeToRemove =>
          let remaining := t.allWrites.eraseIdx index
          some (finishRemoval { t with allWrites := remaining } writeToRemove
            (removalLoop writeToRemove index remaining.zipIdx.reverse
              (writeToRemove.visible, false)))

/-- The filter of the records that count at a place. -/
def eventCacheFilter (treePath : FPath κ) (writeIdsToExclude : Option (List Int))
    (includeHiddenWrites : Bool) (record : FWriteRecord κ ν) : Bool :=
  (record.visible || includeHiddenWrites) &&
  (match writeIdsToExclude with
   | none => true
   | some ids => !ids.contains record.writeId) &&
  (FPath.contains record.path treePath || FPath.contains treePath record.path)

/-- `calculateCompleteEventCacheAtPath:completeServerCache:excludeWriteIds:includeHiddenWrites:` -/
def calculateCompleteEventCacheAtPath (t : FWriteTree κ ν) (treePath : FPath κ)
    (completeServerCache : Option (FNode κ ν)) (writeIdsToExclude : Option (List Int))
    (includeHiddenWrites : Bool) : Option (FNode κ ν) :=
  if writeIdsToExclude = none ∧ !includeHiddenWrites then
    match t.visibleWrites.completeNodeAtPath treePath with
    | some shadowingNode => some shadowingNode
    | none =>
        let subMerge := t.visibleWrites.childCompoundWriteAtPath treePath
        if subMerge.isEmpty then completeServerCache
        else if completeServerCache.isNone && !subMerge.hasCompleteWriteAtPath [] then none
        else some (subMerge.applyToNode (completeServerCache.getD .emptyNode))
  else
    let merge := t.visibleWrites.childCompoundWriteAtPath treePath
    if !includeHiddenWrites && merge.isEmpty then completeServerCache
    else if !includeHiddenWrites && completeServerCache.isNone &&
        !merge.hasCompleteWriteAtPath [] then none
    else
      let filter := eventCacheFilter treePath writeIdsToExclude includeHiddenWrites
      let mergeAtPath := layerTreeFromWrites t.allWrites filter treePath
      some (mergeAtPath.applyToNode (completeServerCache.getD .emptyNode))

end FWriteTree

end BetweenUS.FirebaseDatabase
