/-
Sources, spans of them, and lines and columns. Offsets and lengths count
bytes. A span need not lie inside of its source: positions are moved back to
the end of the text, and positions inside of a character have neither line
nor column.

A newline belongs to the line it ends, and so does the position right after
it.
-/
import WasmBackend.Source.Bytes
import WasmBackend.Source.Path

namespace WasmBackend

/-- Some text and the file it is from. -/
structure Source where
  contents : String
  path : String

namespace Source

/-- The path of text that is from no file. -/
def defaultPath : String := "./source"

def same (s t : Source) : Bool := s.contents = t.contents && Path.same s.path t.path

/-- The source in a file with these bytes, if they are text. -/
def ofBytes? (bytes : ByteArray) (path : String) : Option Source :=
  (String.fromUTF8? bytes).map (⟨·, path⟩)

/-- The text up to a position. -/
def upTo? (s : Source) (i : Nat) : Option (List Char) :=
  (Text.splitBytes? (min i s.contents.utf8ByteSize) s.contents.toList).map (·.1)

/-- The number of the line that a position is on, from zero. -/
def line? (s : Source) (i : Nat) : Option Nat :=
  (s.upTo? i).map fun text => (Text.pieces text).length - 1

/-- How many characters of its line stand before a position. -/
def col? (s : Source) (i : Nat) : Option Nat :=
  (s.upTo? i).map fun text => ((Text.pieces text).getLast?.getD []).length

end Source

/-- A section of a source. -/
structure Span where
  source : Source
  offset : Nat
  length : Nat

namespace Span

/-- The empty span at a position. -/
def point (source : Source) (offset : Nat) : Span := ⟨source, offset, 0⟩

/-- The position after the span. -/
def stop (s : Span) : Nat := s.offset + s.length

def isEmpty (s : Span) : Bool := s.length = 0

/-- Whether two spans cover the same text of the same file. -/
def same (s t : Span) : Bool :=
  s.offset = t.offset && s.length = t.length && s.source.same t.source

/-- Numbers spans in the order in which they first appear, the same span always alike. -/
def keys (spans : List Span) : List Nat :=
  let distinct := spans.foldl (fun known s => if known.any s.same then known else known ++ [s]) []
  spans.map fun s => distinct.findIdx s.same

/-- The text of a span, which is empty unless all of it is in the source. -/
def contents (s : Span) : String :=
  let text := do
    let (_, after) ← Text.splitBytes? s.offset s.source.contents.toList
    let (inside, _) ← Text.splitBytes? s.length after
    return String.ofList inside
  text.getD ""

/-- The lines from the one that the span starts on to the one that it ends on. -/
def lines? (s : Span) : Option (List String) := do
  let lines := Text.lines s.source.contents.toList
  let first ← s.source.line? s.offset
  let last ← s.source.line? s.stop
  let shown ← Text.between? first (max (min last (lines.length - 1)) first) lines
  return shown.map String.ofList

end Span

/-- An item with where it stands. -/
structure Located (α : Type) where
  item : α
  span : Span

/-- Applies a function that can fail, keeping the span. -/
def Located.tryMap {α β ε : Type} (f : α → Except ε β) (s : Located α) : Except ε (Located β) :=
  (f s.item).map (⟨·, s.span⟩)

end WasmBackend
