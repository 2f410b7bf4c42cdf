/-
BetweenUS.FirebaseDatabase.FImmutableSortedDictionary — the sorted
dictionary that holds the children of a database node, in its two
implementations: two parallel arrays up to 25 entries
(`FArraySortedDictionary.m`), a red-black tree above
(`FTreeSortedDictionary.m`, `FTreeSortedDictionaryEnumerator.m`).

An `NSDictionary` is the list of its entries in the order in which it
happens to enumerate them. `none` stands for a raised exception.
-/
import BetweenUS.FirebaseDatabase.FLLRBNode
import Mathlib.Data.List.Basic

namespace BetweenUS.FirebaseDatabase

variable {κ ν : Type}

/-- `SORTED_DICTIONARY_ARRAY_TO_RB_TREE_SIZE_THRESHOLD` -/
def arrayToTreeThreshold : Nat := 25

/-! ## `FTreeSortedDictionary` -/

namespace FTreeSortedDictionary

/-! ### Lookups -/

def get (cmp : κ → κ → Ordering) : FLLRBNode κ ν → κ → Option ν
  | .empty, _ => none
  | .value k v _ l r, key =>
      match cmp key k with
      | .eq => some v
      | .lt => get cmp l key
      | .gt => get cmp r key

/-- The key of the last node on the way right. -/
def rightmostKey : FLLRBNode κ ν → Option κ
  | .empty => none
  | .value k _ _ _ r => if r.isEmpty then some k else rightmostKey r

/-- The loop of `getPredecessorKey:`. The outer option is the exception
for a key that is not there, the inner one the answer nil for the first
key. -/
def getPredecessorLoop (cmp : κ → κ → Ordering) (key : κ) :
    FLLRBNode κ ν → Option κ → Option (Option κ)
  | .empty, _ => none
  | .value k _ _ l r, rightParent =>
      match cmp key k with
      | .eq => some (if l.isEmpty then rightParent else rightmostKey l)
      | .lt => getPredecessorLoop cmp key l rightParent
      | .gt => getPredecessorLoop cmp key r (some k)

def getPredecessorKey (cmp : κ → κ → Ordering) (root : FLLRBNode κ ν) (key : κ) :
    Option (Option κ) :=
  getPredecessorLoop cmp key root none

/-! ### Updates -/

def insertKey (cmp : κ → κ → Ordering) (root : FLLRBNode κ ν) (aKey : κ) (aValue : ν) :
    FLLRBNode κ ν :=
  (root.insertKey cmp aKey aValue).withColor .black

def removeKey (cmp : κ → κ → Ordering) (root : FLLRBNode κ ν) (aKey : κ) : FLLRBNode κ ν :=
  if (get cmp root aKey).isSome then (root.remove cmp aKey).withColor .black else root

/-! ### Building a tree from sorted entries

A number with digits 1 and 2 says how many chunks of each power of two
the entries are cut into, the largest chunks last. Each chunk is a
pennant: a node whose right child is a full tree. -/

/-- `MIN(keys.count - startIndex, length)`: an index past the end wraps
the unsigned difference around. -/
def boundLength (count startIndex length : Nat) : Nat :=
  if startIndex ≤ count then Nat.min (count - startIndex) length else length

theorem boundLength_le (count startIndex length : Nat) :
    boundLength count startIndex length ≤ length := by
  unfold boundLength
  split
  · exact Nat.min_le_right _ _
  · exact Nat.le_refl _

/-- The full tree over `length` entries from `startIndex`. -/
def buildBalancedTree (entries : List (κ × ν)) (startIndex length : Nat) :
    Option (FLLRBNode κ ν) :=
  let bounded := boundLength entries.length startIndex length
  if bounded = 0 then some .empty
  else if bounded = 1 then do
    let (k, v) ← entries[startIndex]?
    some (.value k v .black .empty .empty)
  else do
    let middle := bounded / 2
    let l ← buildBalancedTree entries startIndex middle
    let r ← buildBalancedTree entries (startIndex + middle + 1) middle
    let (k, v) ← entries[startIndex + middle]?
    some (.value k v .black l r)
termination_by length
decreasing_by
  all_goals
    have hle := boundLength_le entries.length startIndex length
    omega

/-- The pennants that `rootFrom12List:` builds for the digits at the
positions below `count`, most significant first. -/
def pennants (bits : Nat) : Nat → List (FLLRBColor × Nat)
  | 0 => []
  | position + 1 =>
      (if bits.testBit position then [(.black, 2 ^ position), (.red, 2 ^ position)]
        else [(.black, 2 ^ position)]) ++ pennants bits position

/-- Each pennant takes the last `chunkSize` entries that are left and
becomes the left child of the pennant before it. -/
def attachPennants (entries : List (κ × ν)) :
    List (FLLRBColor × Nat) → Nat → Option (FLLRBNode κ ν)
  | [], _ => some .empty
  | (color, chunkSize) :: rest, index => do
      let startIndex := index - chunkSize + 1
      let (k, v) ← entries[index - chunkSize]?
      let childTree ← buildBalancedTree entries startIndex (chunkSize - 1)
      let left ← attachPennants entries rest (index - chunkSize)
      some (.value k v color left childTree)

def rootFrom12List (entries : List (κ × ν)) : Option (FLLRBNode κ ν) :=
  let count := (entries.length + 1).log2
  let bits := (entries.length + 1) % 2 ^ count
  attachPennants entries (pennants bits count) entries.length

end FTreeSortedDictionary

/-- The sorted entries of a dictionary, unless two keys tie. -/
def sortedEntries (cmp : κ → κ → Ordering) (dictionary : List (κ × ν)) :
    Option (List (κ × ν)) :=
  let entries := dictionary.mergeSort fun a b => (cmp a.1 b.1).isLE
  if entries.IsChain fun a b => cmp a.1 b.1 = .lt then some entries else none

/-! ## Both implementations -/

inductive FImmutableSortedDictionary (κ ν : Type) where
  | array (keys : List κ) (values : List ν)
  | tree (root : FLLRBNode κ ν)
deriving Repr

/-! ### `FArraySortedDictionary` -/

namespace FArraySortedDictionary

/-- How many keys are below `key`, scanning from the left. -/
def findInsertPositionForKey (cmp : κ → κ → Ordering) (keys : List κ) (key : κ) : Nat :=
  match keys with
  | [] => 0
  | k :: keys =>
      if cmp k key = .lt then findInsertPositionForKey cmp keys key + 1 else 0

def findKey (cmp : κ → κ → Ordering) (keys : List κ) (key : κ) : Option Nat :=
  match keys with
  | [] => none
  | k :: keys =>
      match cmp key k with
      | .eq => some 0
      | .lt => none
      | .gt => (findKey cmp keys key).map (· + 1)

end FArraySortedDictionary

namespace FImmutableSortedDictionary

open FArraySortedDictionary

def fromDictionary (cmp : κ → κ → Ordering) (dictionary : List (κ × ν)) :
    Option (FImmutableSortedDictionary κ ν) := do
  let entries ← sortedEntries cmp dictionary
  if dictionary.length ≤ arrayToTreeThreshold then
    some (array (entries.map Prod.fst) (entries.map Prod.snd))
  else
    let root ← FTreeSortedDictionary.rootFrom12List entries
    some (tree root)

def insertKey (cmp : κ → κ → Ordering) (key : κ) (value : ν) :
    FImmutableSortedDictionary κ ν → Option (FImmutableSortedDictionary κ ν)
  | array keys values =>
      match findKey cmp keys key with
      | some pos => some (array (keys.set pos key) (values.set pos value))
      | none =>
          if arrayToTreeThreshold ≤ keys.length then do
            let entries ← sortedEntries cmp (keys.zip values ++ [(key, value)])
            let root ← FTreeSortedDictionary.rootFrom12List entries
            some (tree root)
          else
            let newPos := findInsertPositionForKey cmp keys key
            some (array (keys.insertIdx newPos key) (values.insertIdx newPos value))
  | tree root => some (tree (FTreeSortedDictionary.insertKey cmp root key value))

def removeKey (cmp : κ → κ → Ordering) (key : κ) :
    FImmutableSortedDictionary κ ν → FImmutableSortedDictionary κ ν
  | array keys values =>
      match findKey cmp keys key with
      | none => array keys values
      | some pos => array (keys.eraseIdx pos) (values.eraseIdx pos)
  | tree root => tree (FTreeSortedDictionary.removeKey cmp root key)

def get (cmp : κ → κ → Ordering) : FImmutableSortedDictionary κ ν → κ → Option ν
  | array keys values, key => do
      let pos ← findKey cmp keys key
      values[pos]?
  | tree root, key => FTreeSortedDictionary.get cmp root key

/-- The outer option is the exception for a key that is not there. -/
def getPredecessorKey (cmp : κ → κ → Ordering) :
    FImmutableSortedDictionary κ ν → κ → Option (Option κ)
  | array keys _, key =>
      match findKey cmp keys key with
      | none => none
      | some 0 => some none
      | some (pos + 1) => some keys[pos]?
  | tree root, key => FTreeSortedDictionary.getPredecessorKey cmp root key

def count : FImmutableSortedDictionary κ ν → Nat
  | array keys _ => keys.length
  | tree root => root.count

def minKey : FImmutableSortedDictionary κ ν → Option κ
  | array keys _ => keys.head?
  | tree root => root.minKey

def maxKey : FImmutableSortedDictionary κ ν → Option κ
  | array keys _ => keys.getLast?
  | tree root => root.maxKey

/-- What `enumerateKeysAndObjectsUsingBlock:` hands to a block that never
stops it. -/
def enumerate : FImmutableSortedDictionary κ ν → List (κ × ν)
  | array keys values => keys.zip values
  | tree root => root.inorder

/-- The same from the last entry to the first. -/
def enumerateReverse : FImmutableSortedDictionary κ ν → List (κ × ν)
  | array keys values => (keys.zip values).reverse
  | tree root => root.reverseorder

/-- `isEqual:` compares the sizes and then looks each entry up. -/
def isEqual [BEq ν] (cmp : κ → κ → Ordering) (d d' : FImmutableSortedDictionary κ ν) : Bool :=
  d.count == d'.count && d.enumerate.all fun e => d'.get cmp e.1 == some e.2

end FImmutableSortedDictionary

end BetweenUS.FirebaseDatabase
