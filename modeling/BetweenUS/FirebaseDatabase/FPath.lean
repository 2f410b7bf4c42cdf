/-
BetweenUS.FirebaseDatabase.FPath — places in the database (`FPath.m`).

The source keeps an array of pieces and the index of the first one that
counts; `popFront` moves the index. A path is read only through the pieces
from that index on, so here it is the list of them: `getFront` and
`popFront` are the head and the tail, `child` is concatenation.

A path is read from a text by cutting it at the slashes and dropping the
empty pieces, and written back in three ways. `initWith_render`: each of
them reads back as the same path.
-/
import Mathlib.Data.List.Infix

namespace BetweenUS.FirebaseDatabase

/-- `FPath`: the pieces from the root on. -/
abbrev FPath (κ : Type) := List κ

namespace FPath

/-! ## Paths as lists -/

section Paths

variable {κ : Type} [DecidableEq κ]

/-- `relativePathFrom:to:`, which throws when `inner` is not within
`outer`. -/
def relativePathFrom : FPath κ → FPath κ → Option (FPath κ)
  | [], inner => some inner
  | _ :: _, [] => none
  | outerFront :: outer, innerFront :: inner =>
      if outerFront = innerFront then relativePathFrom outer inner else none

def contains : FPath κ → FPath κ → Bool
  | [], _ => true
  | _ :: _, [] => false
  | thisSeg :: rest, otherSeg :: other => if thisSeg = otherSeg then contains rest other else false

theorem relativePathFrom_append (p q : FPath κ) : relativePathFrom p (p ++ q) = some q := by
  induction p with
  | nil => rfl
  | cons k p ih => simpa [relativePathFrom] using ih

theorem contains_iff {p q : FPath κ} : contains p q = true ↔ p <+: q := by
  induction p generalizing q with
  | nil => simp [contains]
  | cons k p ih =>
    cases q with
    | nil => simp [contains]
    | cons k' q =>
      rw [contains, List.cons_prefix_cons]
      split
      · next heq => simp [heq, ih]
      · next hne => simp [hne]

theorem relativePathFrom_of_prefix {p q : FPath κ} (h : p <+: q) :
    relativePathFrom p q = some (q.drop p.length) := by
  obtain ⟨t, rfl⟩ := h
  rw [relativePathFrom_append, List.drop_left]

end Paths

/-! ## Texts -/

/-- The pieces of a text. -/
def initWith (path : String) : FPath String :=
  ((path.toList.splitOn '/').filter fun piece => !piece.isEmpty).map String.ofList

def childFromString (p : FPath String) (childPath : String) : FPath String :=
  p ++ initWith childPath

def toStringWithTrailingSlash (p : FPath String) (trailingSlash : Bool) : String :=
  if p = [] then "/"
  else p.foldl (fun pathString piece => pathString ++ "/" ++ piece) "" ++
    if trailingSlash then "/" else ""

def wireFormat : FPath String → String
  | [] => "/"
  | piece :: rest => rest.foldl (fun pathString piece => pathString ++ "/" ++ piece) piece

/-- A piece as `initWith` cuts it. -/
def IsPiece (piece : String) : Prop := piece ≠ "" ∧ '/' ∉ piece.toList

theorem initWith_append_slash (s t : String) :
    initWith (s ++ "/" ++ t) = initWith s ++ initWith t := by
  have htext : (s ++ "/" ++ t).toList = s.toList ++ '/' :: t.toList := by simp
  rw [initWith, htext, List.splitOn, List.splitOnP_append_cons s.toList t.toList (by simp),
    List.filter_append, List.map_append]
  rfl

theorem initWith_of_isPiece {piece : String} (h : IsPiece piece) : initWith piece = [piece] := by
  have hsplit : piece.toList.splitOn '/' = [piece.toList] := by
    refine List.splitOnP_eq_singleton fun c hc => ?_
    have hne : c ≠ '/' := by
      rintro rfl
      exact h.2 hc
    simpa using hne
  simp [initWith, hsplit, h.1]

theorem not_mem_of_mem_splitOn {text piece : List Char} (h : piece ∈ text.splitOn '/') :
    '/' ∉ piece := by
  induction text generalizing piece with
  | nil =>
    have hnil : piece = [] := by simpa [List.splitOn] using h
    simp [hnil]
  | cons c text ih =>
    rw [List.splitOn, List.splitOnP_cons_eq_if_modifyHead] at h
    split at h
    · rcases List.mem_cons.mp h with rfl | h
      · simp
      · exact ih h
    · next hc =>
      obtain ⟨r, rs, hr⟩ := List.exists_cons_of_ne_nil (List.splitOnP_ne_nil (· == '/') text)
      rw [hr, List.modifyHead_cons] at h
      have hmem : ∀ x ∈ r :: rs, '/' ∉ x := by
        intro x hx
        rw [← hr] at hx
        exact ih hx
      rcases List.mem_cons.mp h with rfl | h
      · have hr' := hmem r List.mem_cons_self
        simp only [beq_iff_eq] at hc
        simp [hr', Ne.symm hc]
      · exact hmem piece (List.mem_cons_of_mem r h)

theorem isPiece_of_mem_initWith {path piece : String} (h : piece ∈ initWith path) :
    IsPiece piece := by
  obtain ⟨text, htext, rfl⟩ := List.mem_map.mp h
  obtain ⟨hsplit, hne⟩ := List.mem_filter.mp htext
  refine ⟨?_, by simpa using not_mem_of_mem_splitOn hsplit⟩
  simpa using hne

theorem initWith_foldl (s : String) {p : FPath String} (h : ∀ piece ∈ p, IsPiece piece) :
    initWith (p.foldl (fun pathString piece => pathString ++ "/" ++ piece) s) =
      initWith s ++ p := by
  induction p generalizing s with
  | nil => simp
  | cons piece p ih =>
    rw [List.foldl_cons, ih _ fun x hx => h x (List.mem_cons_of_mem piece hx),
      initWith_append_slash, initWith_of_isPiece (h piece List.mem_cons_self),
      List.append_assoc, List.singleton_append]

theorem initWith_empty : initWith "" = [] := by
  simp [initWith, List.splitOn]

theorem initWith_toString {p : FPath String} (h : ∀ piece ∈ p, IsPiece piece) (b : Bool) :
    initWith (toStringWithTrailingSlash p b) = p := by
  rw [toStringWithTrailingSlash]
  split
  · next hp => simpa [initWith_empty, hp] using initWith_append_slash "" ""
  · have hpath := initWith_foldl "" h
    rw [initWith_empty, List.nil_append] at hpath
    cases b with
    | false => simpa using hpath
    | true =>
      have hslash := initWith_append_slash
        (p.foldl (fun pathString piece => pathString ++ "/" ++ piece) "") ""
      rw [hpath, initWith_empty, List.append_nil] at hslash
      simpa using hslash

theorem initWith_wireFormat {p : FPath String} (h : ∀ piece ∈ p, IsPiece piece) :
    initWith (wireFormat p) = p := by
  cases p with
  | nil => simpa [initWith_empty, wireFormat] using initWith_append_slash "" ""
  | cons piece p =>
    rw [wireFormat, initWith_foldl piece fun x hx => h x (List.mem_cons_of_mem piece hx),
      initWith_of_isPiece (h piece List.mem_cons_self), List.singleton_append]

/-- Every way to write down the path of a text reads back as that path, also
below another path. -/
theorem initWith_render (path childPath : String) (trailingSlash : Bool) :
    initWith (toStringWithTrailingSlash (childFromString (initWith path) childPath)
        trailingSlash) = childFromString (initWith path) childPath ∧
      initWith (wireFormat (childFromString (initWith path) childPath)) =
        childFromString (initWith path) childPath ∧
      initWith (path ++ "/" ++ childPath) = childFromString (initWith path) childPath := by
  have hpieces : ∀ piece ∈ childFromString (initWith path) childPath, IsPiece piece := by
    intro piece hpiece
    rcases List.mem_append.mp hpiece with h | h
    · exact isPiece_of_mem_initWith h
    · exact isPiece_of_mem_initWith h
  exact ⟨initWith_toString hpieces trailingSlash, initWith_wireFormat hpieces,
    initWith_append_slash path childPath⟩

end FPath

end BetweenUS.FirebaseDatabase
