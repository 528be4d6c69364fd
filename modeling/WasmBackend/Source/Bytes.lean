/-
Text cut at byte offsets. A cut is possible where no character straddles it.
-/
namespace WasmBackend.Text

/-- The first `n` bytes and the rest, unless the cut falls inside of a character or after the end. -/
def splitBytes? : Nat → List Char → Option (List Char × List Char)
  | 0, cs => some ([], cs)
  | _ + 1, [] => none
  | n + 1, c :: cs =>
    if c.utf8Size ≤ n + 1 then
      (splitBytes? (n + 1 - c.utf8Size) cs).map fun (before, after) => (c :: before, after)
    else none

/-- The text between newlines; there is always one more piece than there are newlines. -/
def lines : List Char → List (List Char)
  | [] => [[]]
  | c :: cs =>
    if c = '\n' then [] :: lines cs
    else
      match lines cs with
      | [] => [[c]]
      | l :: ls => (c :: l) :: ls

/-- The text cut after every newline; there is no piece after a newline that ends it. -/
def pieces : List Char → List (List Char)
  | [] => []
  | c :: cs =>
    if c = '\n' then [c] :: pieces cs
    else
      match pieces cs with
      | [] => [[c]]
      | p :: ps => (c :: p) :: ps

/-- The items from one index to another one, both included, if the second is in range and the first is at most one
after it. -/
def between? {α : Type} (first last : Nat) (items : List α) : Option (List α) :=
  if first ≤ last + 1 ∧ last < items.length then some ((items.drop first).take (last + 1 - first)) else none

end WasmBackend.Text
