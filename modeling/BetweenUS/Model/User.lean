/-
BetweenUS.Model.User — `User.swift`, the values a database snapshot can
carry, and the synthesized `Decodable` of `User`.

`FBValue` is what `DataSnapshot.value` can be: `NSNull`, a boolean, a
number, a string, an array or a dictionary. `loadUser` turns a dictionary
into JSON data and decodes it; serialising and parsing is the identity on
these values, so `User.decode` reads the dictionary directly.

The synthesized decoder visits the stored properties in declaration order
and looks each one up under its own name. The five strings must be
PRESENT, not null, and strings. `content` is optional: absent or null
decodes to `nil`, silently, and anything else has to be an array of
strings.
-/
import Mathlib.Data.List.Basic

namespace BetweenUS.Model

/-! ## Data -/

/-- `struct User: Codable`. -/
structure User where
  id : String
  email : String
  name : String
  nickName : String
  birthday : String
  content : Option (List String)
  deriving DecidableEq, Repr

/-- `snapshot.value`. -/
inductive FBValue where
  | null
  | bool (b : Bool)
  | number (q : Rat)
  | string (s : String)
  | array (vs : List FBValue)
  | dict (entries : List (String × FBValue))

/-- `Swift.DecodingError`, with the key it complains about. -/
inductive DecodingError where
  | keyNotFound (key : String)
  | valueNotFound (key : String)
  | typeMismatch (key : String)
  deriving DecidableEq, Repr

/-! ## Decoding -/

/-- `container.decode(String.self, forKey: key)`. -/
def decodeString (entries : List (String × FBValue)) (key : String) :
    Except DecodingError String :=
  match entries.lookup key with
  | none => .error (.keyNotFound key)
  | some .null => .error (.valueNotFound key)
  | some (.string s) => .ok s
  | some _ => .error (.typeMismatch key)

/-- The elements of a `[String]`, decoded in order under `key`. -/
def decodeStrings (key : String) : List FBValue → Except DecodingError (List String)
  | [] => .ok []
  | .string s :: vs => do
      let rest ← decodeStrings key vs
      return s :: rest
  | .null :: _ => .error (.valueNotFound key)
  | _ :: _ => .error (.typeMismatch key)

/-- `container.decodeIfPresent([String].self, forKey: key)`. -/
def decodeStringsIfPresent (entries : List (String × FBValue)) (key : String) :
    Except DecodingError (Option (List String)) :=
  match entries.lookup key with
  | none => .ok none
  | some .null => .ok none
  | some (.array vs) => (decodeStrings key vs).map some
  | some _ => .error (.typeMismatch key)

/-- `JSONDecoder().decode(User.self, from:)` on a dictionary. -/
def User.decode (entries : List (String × FBValue)) : Except DecodingError User := do
  let id ← decodeString entries "id"
  let email ← decodeString entries "email"
  let name ← decodeString entries "name"
  let nickName ← decodeString entries "nickName"
  let birthday ← decodeString entries "birthday"
  let content ← decodeStringsIfPresent entries "content"
  return { id, email, name, nickName, birthday, content }

end BetweenUS.Model
