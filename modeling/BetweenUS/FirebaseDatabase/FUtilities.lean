/-
BetweenUS.FirebaseDatabase.FUtilities — the order of the keys under a
database node (`FUtilities.m`).

A text is seen by the code as its UTF-16 code units: `length` counts them,
`characterAtIndex:` reads one, and a literal comparison is the
lexicographic order on them. The two sentinels are compared by identity, so
a key that a user spells `[MIN_NAME]` is an ordinary key.

Keys that spell a 32-bit integer come first, in numeric order; a shorter
spelling of the same number comes before a longer one.
-/
import Mathlib.Data.List.Basic
import Mathlib.Data.Nat.Basic

namespace BetweenUS.FirebaseDatabase

/-! ## UTF-16 -/

/-- The code units of one character: a surrogate pair above U+FFFF. -/
def utf16Char (c : Char) : List Nat :=
  if c.toNat < 0x10000 then [c.toNat]
  else [0xD800 + (c.toNat - 0x10000) / 0x400, 0xDC00 + (c.toNat - 0x10000) % 0x400]

def utf16 (s : String) : List Nat := s.toList.flatMap utf16Char

/-! ## Integer keys -/

/-- The loop of `tryParseStringToInt` over the digits. -/
def parseDigits : List Nat → Nat → Option Nat
  | [], value => some value
  | c :: cs, value => if c < 48 ∨ 57 < c then none else parseDigits cs (value * 10 + (c - 48))

/-- `INTEGER_32_MIN` and `INTEGER_32_MAX` -/
def int32 (value : Int) : Option Int :=
  if value < -2147483648 ∨ 2147483647 < value then none else some value

def tryParseUnits (units : List Nat) : Option Int :=
  if 11 < units.length then none
  else
    match units with
    | [] => none
    | c :: rest =>
        if c = 45 then
          if rest = [] then none
          else (parseDigits rest 0).bind fun value => int32 (-(value : Int))
        else (parseDigits (c :: rest) 0).bind fun value => int32 value

def tryParseStringToInt (str : String) : Option Int := tryParseUnits (utf16 str)

/-! ## Comparison -/

/-- A key, or one of the two sentinels that stand below and above all. -/
inductive FKeyName where
  | minName
  | maxName
  | name (text : String)
deriving DecidableEq, Repr

/-- `NSComparisonResult` of two code unit sequences under
`NSLiteralSearch`. -/
def compareUnits (a b : List Nat) : Ordering := compare a b

/-- The comparison of two texts that are no sentinels. -/
def compareText (a b : String) : Ordering :=
  match tryParseStringToInt a, tryParseStringToInt b with
  | some aAsInt, some bAsInt =>
      if bAsInt < aAsInt then .gt
      else if aAsInt < bAsInt then .lt
      else if (utf16 b).length < (utf16 a).length then .gt
      else if (utf16 a).length < (utf16 b).length then .lt
      else .eq
  | some _, none => .lt
  | none, some _ => .gt
  | none, none => compareUnits (utf16 a) (utf16 b)

/-- `compareKey:toKey:` -/
def compareKey (a b : FKeyName) : Ordering :=
  if a = b then .eq
  else if a = .minName ∨ b = .maxName then .lt
  else if b = .minName ∨ a = .maxName then .gt
  else
    match a, b with
    | .name a, .name b => compareText a b
    | _, _ => .eq

end BetweenUS.FirebaseDatabase
