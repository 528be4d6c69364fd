/-
TOML documents: pairs at the top, then sections under headers. Headers whose
paths start alike are taken together, part by part. Among those taken
together a header may not repeat the shortest path before it, and a table
may not be an array of tables as well. Each element of an array of tables
starts anew.
-/
import WasmBackend.Toml.Value

namespace WasmBackend.Toml

/-- The header of a section; `isArray` if it adds an element to an array of tables. -/
structure Header where
  path : List String
  isArray : Bool
deriving DecidableEq, Repr

structure Document where
  /-- The pairs before the first header. -/
  top : Pairs
  /-- The headers in order. -/
  headers : List Header

namespace Header

/-- What follows the opening bracket or brackets of a header. -/
def read? (isArray : Bool) (ts : List Token) : Option (Header × List Token) := do
  let ((first, parts), rest) ← Token.dottedKey? (Token.skipBlank ts)
  let rest ← match isArray, rest with
    | false, .rightBracket :: rest => some rest
    | true, .rightBracket :: .rightBracket :: rest => some rest
    | _, _ => none
  let rest ← Token.lineEnd? (Token.skipBlank rest)
  return (⟨first :: parts, isArray⟩, rest)

mutual

/-- Whether headers that share the first `depth` parts of their paths fit together; `shortest` is
the one of the shortest path before them. -/
def fit (fuel depth : Nat) (shortest : Option Header) (hs : List Header) : Bool :=
  match fuel, hs with
  | 0, _ => false
  | _, [] => true
  | fuel + 1, h :: more =>
    let known := shortest.any (·.path = h.path)
    let next := match shortest with
      | some s => if h.path.length < s.path.length then h else s
      | none => h
    !known &&
      if h.path.length ≤ depth then !h.isArray && fit fuel depth (some next) more
      else
        let inside (g : Header) : Bool := g.path[depth]? = h.path[depth]?
        (if h.isArray && h.path.length = depth + 1 then
          elementsFit fuel (depth + 1) ((h :: more).filter inside)
        else fit fuel (depth + 1) none ((h :: more).filter inside)) &&
          fit fuel depth (some next) (more.filter fun g => !inside g)

/-- Whether the headers of an array of tables fit, where each element starts anew. -/
def elementsFit (fuel depth : Nat) (hs : List Header) : Bool :=
  match fuel, hs with
  | 0, _ => false
  | _, [] => true
  | fuel + 1, h :: more =>
    fit fuel depth (some h) (more.takeWhile (· ≠ h)) &&
      elementsFit fuel depth (more.dropWhile (· ≠ h))

end

/-- Each step goes one part deeper into some paths or is done with a header. -/
def allFit (hs : List Header) : Bool :=
  fit (hs.foldl (fun fuel h => fuel + h.path.length + 2) 1) 0 none hs

end Header

namespace Document

/-- Reads lines. Pairs belong to the section that was opened last, whose contents are `pairs`. -/
def read? : Nat → Document → Pairs → List Token → Option Document
  | 0, _, _, _ => none
  | fuel + 1, d, pairs, ts => do
    match ← Token.skipLines? ts with
    | [] => some d
    | .leftBracket :: rest => do
      let (isArray, rest) := match rest with
        | .leftBracket :: rest => (true, rest)
        | _ => (false, rest)
      let (h, rest) ← Header.read? isArray rest
      read? fuel { d with headers := d.headers ++ [h] } [] rest
    | rest => do
      let ((key, parts), rest) ← Token.dottedKey? rest
      match rest with
      | .equals :: rest => do
        let (v, rest) ← Token.value? rest.length (Token.skipBlank rest)
        let rest ← Token.lineEnd? (Token.skipBlank rest)
        let pairs ← Pairs.add pairs key parts v
        read? fuel (if d.headers.isEmpty then { d with top := pairs } else d) pairs rest
      | _ => none

/-- A document whose headers fit together. -/
def ofString? (text : String) : Option Document := do
  let ts ← Token.ofString? text
  let d ← read? ts.length.succ ⟨[], []⟩ [] ts
  if Header.allFit d.headers then some d else none

end Document

end WasmBackend.Toml
