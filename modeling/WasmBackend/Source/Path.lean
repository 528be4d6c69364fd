/-
File paths. Two paths are the same if they have the same parts: repeated
separators, inner dots and separators at the end do not matter.
-/
namespace WasmBackend.Path

/-- The parts between separators. -/
def parts : List Char → List (List Char)
  | [] => [[]]
  | c :: cs =>
    if c = '/' then [] :: parts cs
    else
      match parts cs with
      | [] => [[c]]
      | p :: ps => (c :: p) :: ps

/-- Whether a part moves along the path. -/
def counts (part : List Char) : Bool := part ≠ [] && part ≠ ['.']

/-- A path's parts, with a dot only at the start of a path that does not start at the root, and
whether it starts at the root. -/
structure Parts where
  rooted : Bool
  names : List (List Char)
deriving DecidableEq, Repr

def ofString (path : String) : Parts :=
  match parts path.toList with
  | [] => ⟨false, []⟩
  | [] :: rest => ⟨path ≠ "", rest.filter counts⟩
  | first :: rest => ⟨false, first :: rest.filter counts⟩

def same (p q : String) : Bool := ofString p = ofString q

end WasmBackend.Path
