/-
BetweenUS.Regex.Syntax — the fragment of ICU regular expressions with
character classes, concatenation, counted repetition, lookahead and the
start anchor, and a backtracking matcher for it.

`ends` returns every suffix that is left over when a prefix of the input
has been matched, so a match that can be split in several ways has
several ends and backtracking is exploring them. A lookahead consumes
nothing: it keeps the input it was tried at. The anchor needs to know
where the input began, hence the length of the whole input is passed
along.

`SELF MATCHES` asks for a match of the WHOLE string: one of the ends is
the empty suffix.
-/
import Mathlib.Data.List.Basic

namespace BetweenUS.Regex

/-! ## Syntax -/

/-- A regular expression over code points. -/
inductive Re where
  /-- One code point of a class. -/
  | cls (p : Char → Bool)
  | seq (r s : Re)
  /-- `r{min,max}`; `r+` is `rep r 1 none` and `r*` is `rep r 0 none`. -/
  | rep (r : Re) (min : Nat) (max : Option Nat)
  /-- `(?=r)`. -/
  | look (r : Re)
  /-- `^`. -/
  | start

/-! ## Matching -/

/-- The ends of exactly `n` matches in a row. -/
def exactly (f : List Char → List (List Char)) : Nat → List Char → List (List Char)
  | 0, w => [w]
  | n + 1, w => (f w).flatMap (exactly f n)

/-- The ends of at most `n` matches in a row. -/
def upTo (f : List Char → List (List Char)) : Nat → List Char → List (List Char)
  | 0, w => [w]
  | n + 1, w => w :: (f w).flatMap (upTo f n)

/-- Every suffix left over by a match of `r` at the front of `w`, in an
input of `n` code points. An unbounded repetition needs at most as many
rounds as there are code points left: a round that consumes nothing
leads nowhere new. -/
def ends (n : Nat) : Re → List Char → List (List Char)
  | .cls p, c :: w => if p c then [w] else []
  | .cls _, [] => []
  | .seq r s, w => (ends n r w).flatMap (ends n s)
  | .rep r min max, w =>
      (exactly (ends n r) min w).flatMap fun w' =>
        match max with
        | some m => upTo (ends n r) (m - min) w'
        | none => upTo (ends n r) w'.length w'
  | .look r, w => if (ends n r w).isEmpty then [] else [w]
  | .start, w => if w.length = n then [w] else []

/-- The whole-string match of `SELF MATCHES`. -/
def matchesWhole (r : Re) (s : String) : Bool :=
  (ends s.toList.length r s.toList).any List.isEmpty

/-! ## Character classes -/

def between (lo hi c : Char) : Bool := decide (lo ≤ c) && decide (c ≤ hi)

/-- `[A-Za-z]`. -/
def asciiLetter (c : Char) : Bool := between 'A' 'Z' c || between 'a' 'z' c

/-- `[0-9]`. -/
def asciiDigit (c : Char) : Bool := between '0' '9' c

/-- ICU's line terminators: U+000A to U+000D, U+0085, U+2028, U+2029. -/
def lineTerminator (c : Char) : Bool :=
  between '\n' '\r' c || c == Char.ofNat 0x85 || c == Char.ofNat 0x2028
    || c == Char.ofNat 0x2029

/-- `.`. -/
def anyButLineTerminator (c : Char) : Bool := !lineTerminator c

end BetweenUS.Regex
