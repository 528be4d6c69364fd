/-
Excerpts: the lines a span lies on, as they are shown to a reader.
-/
import WasmBackend.Source.Span

namespace WasmBackend

/-- Lines and columns count from zero. -/
structure Excerpt where
  path : String
  start : Nat
  lines : List String
  startCol : Nat
  endCol : Nat

namespace Excerpt

def isMultiline (e : Excerpt) : Bool := e.lines.length ≠ 1

/-- The width of the first line's number. -/
def gutter (e : Excerpt) : Nat := (toString (e.start + 1)).length

/-- How many characters a span on one line covers. -/
def carets? (e : Excerpt) : Option Nat :=
  if e.isMultiline then none else some (e.endCol - e.startCol)

def blanks (n : Nat) : String := String.ofList (List.replicate n ' ')

/-- A line of several, after its number. -/
def numbered (e : Excerpt) (index : Nat) (line : String) : String :=
  let number := toString (e.start + index + 1)
  number ++ blanks (e.gutter - number.length) ++ " > " ++ line ++ "\n"

/-- The line itself and the carets below, at least one. -/
def pointed (e : Excerpt) (line : String) (carets : Nat) : String :=
  toString (e.start + 1) ++ " | " ++ line ++ "\n" ++
    blanks e.gutter ++ " | " ++ blanks e.startCol ++
    String.ofList (List.replicate (max carets 1) '^') ++ "\n"

def render (e : Excerpt) : String :=
  "In " ++ e.path ++ ":" ++ toString (e.start + 1) ++ ":" ++ toString (e.startCol + 1) ++ "\n" ++
    blanks e.gutter ++ " |\n" ++
    match e.lines with
    | [line] => e.pointed line (e.endCol - e.startCol)
    | lines => String.join (lines.mapIdx e.numbered)

end Excerpt

namespace Span

/-- None if the span starts or ends inside of a character. -/
def excerpt? (s : Span) : Option Excerpt := do
  return {
    path := s.source.path
    start := ← s.source.line? s.offset
    lines := ← s.lines?
    startCol := ← s.source.col? s.offset
    endCol := ← s.source.col? s.stop }

def render? (s : Span) : Option String := s.excerpt?.map (·.render)

end Span

end WasmBackend
