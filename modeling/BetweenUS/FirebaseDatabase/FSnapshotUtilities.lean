/-
BetweenUS.FirebaseDatabase.FSnapshotUtilities — values to nodes and back
(`FSnapshotUtilities.m`, the checks of `FValidation.m` it makes, and
`valForExport:` of `FLeafNode.m` and `FChildrenNode.m`).

`setValue:` hands its argument to `nodeFrom`, and what a snapshot answers
for `value` is `val` of its node. In a dictionary the keys `.priority` and
`.value` are not children: `.value` makes the dictionary a leaf, and
`.priority` is the priority of the node. An array is the dictionary of its
positions. Nothing is stored for a child without a node.

The way back is `valForExport`: with priorities as they were given, or
without them, and then a dictionary of positions that is at least half full
comes back as an array.

An `NSDictionary` is the list of its entries in the order it enumerates
them, all of them strings. What the platform takes for a decimal digit is a
parameter, and `scanInteger:` reads the digits 0 to 9. An exception is its
name and its reason; the class name in one of the reasons is the public one.
A number is a rational one: the branches of `FValidation.m` that raise for a
NaN, as a leaf or as a priority, have no value to be taken for, and neither
have those for an object that is none of the JSON classes.

⚠️ `null` under `.value` is a leaf, and not the empty node: `isEmpty` is
false for it.
-/
import BetweenUS.FirebaseDatabase.FNode
import BetweenUS.FirebaseDatabase.FUtilitiesTheorems
import BetweenUS.Manager.FBUserDatabase

namespace BetweenUS.FirebaseDatabase

open Model (FBValue)
open Manager (isValidKey)

/-- A node of the client's cache. -/
abbrev Node := FNode String FBValue

/-- `NSException` -/
structure FException where
  name : String
  reason : String
deriving DecidableEq, Repr

/-! ## Checks -/

namespace FValidation

def kFirebaseMaxObjectDepth : Nat := 1000

def kFirebaseMaxLeafSize : Nat := 1024 * 1024 * 10

def kPayloadPriority : String := ".priority"

def kPayloadValue : String := ".value"

def kServerValueSubKey : String := ".sv"

/-- The first pieces of a path, as the reasons print it. -/
def pathString (path : List String) (limit : Nat) : String :=
  ".".intercalate (path.take limit)

def invalidData (reason : String) : FException := ⟨"InvalidFirebaseData", reason⟩

/-- `validateFrom:isValidLeafValue:withPath:` -/
def isValidLeafValue (fn : String) (path : List String) : FBValue → Except FException Bool
  | .string theString =>
      if kFirebaseMaxLeafSize < theString.utf8ByteSize then
        .error (invalidData ("(" ++ fn ++ ") String exceeds max size of " ++
          toString kFirebaseMaxLeafSize ++ " utf8 bytes: " ++ pathString path 50))
      else .ok true
  | .number _ => .ok true
  | .bool _ => .ok true
  | .dict dval =>
      if (dval.lookup kServerValueSubKey).isSome then
        if 1 < dval.length then
          .error (invalidData ("(" ++ fn ++
            ") Cannot store other keys with server value keys." ++ pathString path 50 ++ "."))
        else .ok true
      else .ok false
  | .null => .ok true
  | .array _ => .ok false

/-- `validateFrom:validDictionaryKey:withPath:` -/
def validDictionaryKey (fn : String) (path : List String) (key : String) :
    Except FException Unit :=
  if key ≠ kPayloadPriority ∧ key ≠ kPayloadValue ∧ key ≠ kServerValueSubKey ∧
      !isValidKey key then
    .error (invalidData ("(" ++ fn ++ ") Invalid key in object at path: " ++ pathString path 50 ++
      ". Keys must be non-empty and cannot contain '/' '.' '#' '$' '[' or ']'"))
  else .ok ()

/-- `validateFrom:isValidPriorityValue:withPath:` -/
def isValidPriorityValue (fn : String) (path : List String) : FBValue → Except FException Unit
  | .bool _ =>
      .error (invalidData ("(" ++ fn ++ ") Cannot store true/false as priority at path: " ++
        pathString path 50 ++ "."))
  | .dict dval =>
      if (dval.lookup kServerValueSubKey).isSome then
        if 1 < dval.length then
          .error (invalidData ("(" ++ fn ++ ") Cannot store other keys with server value keys " ++
            "as priority at path: " ++ pathString path 50 ++ "."))
        else .ok ()
      else
        .error (invalidData ("(" ++ fn ++ ") Cannot store an NSDictionary as priority at path: " ++
          pathString path 50 ++ "."))
  | .array _ =>
      .error (invalidData ("(" ++ fn ++ ") Cannot store an NSArray as priority at path: " ++
        pathString path 50 ++ "."))
  | .number _ => .ok ()
  | .string _ => .ok ()
  | .null => .ok ()

end FValidation

/-! ## Values to nodes -/

namespace FSnapshotUtilities

open FValidation

/-- `[[value class] description]` -/
def className : FBValue → String
  | .null => "NSNull"
  | .bool _ => "NSNumber"
  | .number _ => "NSNumber"
  | .string _ => "NSString"
  | .array _ => "NSArray"
  | .dict _ => "NSDictionary"

def depthExceeded (fn : String) (path : List String) : FException :=
  invalidData ("(" ++ fn ++ ") Max object depth exceeded: " ++ pathString path 100 ++ "...")

def invalidLeafValueType (fn : String) (value : FBValue) : FException :=
  ⟨"InvalidLeafValueType", "(" ++ fn ++ ") Invalid data type used with .value. Can only use " ++
    "NSString and NSNumber or be null. Found " ++ className value ++ " instead."⟩

/-- The check of a priority, and `nodeFrom:` of it: the empty node, or a
leaf that is checked a second time. -/
def priorityFrom (fn : String) (path : List String) (value : FBValue) :
    Except FException (Option FBValue) := do
  isValidPriorityValue fn path value
  match value with
  | .null => return none
  | _ =>
      let _ ← isValidLeafValue "nodeFrom:priority:" [] value
      return some value

/-- The priority of a dictionary: the one under `.priority` counts, and
both are checked. -/
def dictPriority (fn : String) (path : List String) (aPriority : FBValue)
    (dict : List (String × FBValue)) : Except FException (Option FBValue) := do
  let priority ← priorityFrom fn path aPriority
  match dict.lookup kPayloadPriority with
  | some rawPriority => priorityFrom fn path rawPriority
  | none => return priority

/-- The leaf of a value that is one. -/
def leafFrom (fn : String) (path : List String) (value : FBValue) (priority : Option FBValue) :
    Except FException Node := do
  if ← isValidLeafValue fn path value then return .leaf value priority
  else throw (invalidLeafValueType fn value)

/-- The node of the children that are not empty. -/
def childrenNode (priority : Option FBValue) : List (String × Node) → Except FException Node
  | [] => .ok .emptyNode
  | children =>
      match FImmutableSortedDictionary.fromDictionary keyComparator children with
      | some childrenDict => .ok (.children priority childrenDict.enumerate)
      | none => .error ⟨"NSInvalidArgumentException",
          "Can't create FImmutableSortedDictionary with keys with same ordering!"⟩

/-- `hasPrefix:` of `kPayloadMetadataPrefix` -/
def isMetadata (key : String) : Bool := key.toList.head? = some '.'

mutual

/-- `nodeFrom:priority:withValidationFrom:atDepth:path:` -/
def internalNodeFrom (fn : String) (depth : Nat) (path : List String) (aPriority : FBValue)
    (val : FBValue) : Except FException Node :=
  if kFirebaseMaxObjectDepth < depth then throw (depthExceeded fn path)
  else
    match val with
    | .null => return .emptyNode
    | .dict dict => do
        let priority ← dictPriority fn path aPriority dict
        match dict.lookup kPayloadValue with
        | some value => leafFrom fn path value priority
        | none =>
            if ← isValidLeafValue fn path (.dict dict) then return .leaf (.dict dict) priority
            else childrenNode priority (← childrenFrom fn depth path dict)
    | .array aval => do
        let priority ← priorityFrom fn path aPriority
        childrenNode priority (← elementsFrom fn depth path 0 aval)
    | value => do leafFrom fn path value (← priorityFrom fn path aPriority)

/-- The loop over the keys of a dictionary. -/
def childrenFrom (fn : String) (depth : Nat) (path : List String) :
    List (String × FBValue) → Except FException (List (String × Node))
  | [] => return []
  | (key, value) :: rest => do
      validDictionaryKey fn path key
      if isMetadata key then childrenFrom fn depth path rest
      else
        let childNode ← internalNodeFrom fn (depth + 1) (path ++ [key]) .null value
        let children ← childrenFrom fn depth path rest
        return if childNode.isEmpty then children else (key, childNode) :: children

/-- The loop over the positions of an array, from position `i`. -/
def elementsFrom (fn : String) (depth : Nat) (path : List String) (i : Nat) :
    List FBValue → Except FException (List (String × Node))
  | [] => return []
  | value :: rest => do
      let key := toString i
      let childNode ← internalNodeFrom fn (depth + 1) (path ++ [key]) .null value
      let children ← elementsFrom fn depth path (i + 1) rest
      return if childNode.isEmpty then children else (key, childNode) :: children

end

/-- `nodeFrom:priority:withValidationFrom:` -/
def nodeFrom (fn : String) (priority val : FBValue) : Except FException Node :=
  internalNodeFrom fn 0 [] priority val

end FSnapshotUtilities

/-! ## Nodes to values -/

/-- `scanInteger:` stops at the first character that is no digit, and
holds the largest integer where the digits say more. -/
def scanInteger (text : List Char) : Option Nat :=
  match text.takeWhile Char.isDigit with
  | [] => none
  | digits => some (min (Nat.ofDigitChars 10 digits 0) (2 ^ 63 - 1))

/-- `intForString:`, with the characters of `decimalDigitCharacterSet`. -/
def intForString (decimalDigit : Char → Bool) (text : String) : Option Nat :=
  if text.toList.all decimalDigit then scanInteger text.toList else none

namespace FNode

/-- The loop of `valForExport:` over the keys: whether all of them are
integers so far, and the largest one. -/
def integerKeys (decimalDigit : Char → Bool) : List String → Bool × Nat → Bool × Nat
  | [], state => state
  | key :: keys, (allIntegerKeys, maxKey) =>
      integerKeys decimalDigit keys
        (if allIntegerKeys then
          if key.toList.head? = some '0' ∧ 1 < (utf16 key).length then (false, maxKey)
          else
            match intForString decimalDigit key with
            | some keyAsInt => (true, max maxKey keyAsInt)
            | none => (false, maxKey)
         else (allIntegerKeys, maxKey))

/-- `2 * numKeys`, an `int` that wraps. -/
def twiceNumKeys (numKeys : Nat) : Int := (2 * (numKeys : Int)).bmod (2 ^ 32)

/-- What `valForExport:` makes of the values of the children. -/
def exportChildren (decimalDigit : Char → Bool) (exp : Bool) (priority : Option FBValue)
    (obj : List (String × FBValue)) : FBValue :=
  let (allIntegerKeys, maxKey) := integerKeys decimalDigit (obj.map Prod.fst) (true, 0)
  if !exp && allIntegerKeys && decide ((maxKey : Int) < twiceNumKeys obj.length) then
    .array ((List.range (maxKey + 1)).map fun i => (obj.lookup (toString i)).getD .null)
  else
    match exp, priority with
    | true, some value => .dict (obj ++ [(FValidation.kPayloadPriority, value)])
    | _, _ => .dict obj

mutual

def valForExport (decimalDigit : Char → Bool) (exp : Bool) : Node → FBValue
  | leaf value priority =>
      match exp, priority with
      | true, some priority =>
          .dict [(FValidation.kPayloadValue, value), (FValidation.kPayloadPriority, priority)]
      | _, _ => value
  | children priority entries =>
      if entries.isEmpty then .null
      else exportChildren decimalDigit exp priority (valsForExport decimalDigit exp entries)

/-- The entries of its dictionary `obj`. -/
def valsForExport (decimalDigit : Char → Bool) (exp : Bool) :
    List (String × Node) → List (String × FBValue)
  | [] => []
  | (key, childNode) :: rest =>
      (key, valForExport decimalDigit exp childNode) :: valsForExport decimalDigit exp rest

end

def val (decimalDigit : Char → Bool) (n : Node) : FBValue := valForExport decimalDigit false n

end FNode

end BetweenUS.FirebaseDatabase
