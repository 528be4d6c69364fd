/-
Text between quotes, with escapes for what would not show: backslashes and
quotes, a few control characters by a letter, and all else that does not
stand by itself by its code point.
-/
import WasmBackend.Source.ExtendingMark
import WasmBackend.Source.Span
import WasmBackend.Source.Unprinted

namespace WasmBackend.Text

/-- Whether a character has a printed form and is no mark on the one before it. -/
def standsAlone (c : Char) : Bool := !unprinted.contains c && !extendingMark.contains c

def escaped (c : Char) : String :=
  match c with
  | '"' => "\\\""
  | '\\' => "\\\\"
  | '\n' => "\\n"
  | '\r' => "\\r"
  | '\t' => "\\t"
  | c =>
    if c.toNat = 0 then "\\0"
    else if standsAlone c then c.toString
    else "\\u\x7b" ++ String.ofList (Nat.toDigits 16 c.toNat) ++ "\x7d"

def quoted (s : String) : String := "\"" ++ String.join (s.toList.map escaped) ++ "\""

end WasmBackend.Text

namespace WasmBackend.Span

/-- A span as a record of its text and its ends. -/
def describe (s : Span) : String :=
  "Span \x7b contents: " ++ Text.quoted s.contents ++ ", start: " ++ toString s.offset ++ ", end: " ++
    toString s.stop ++ " \x7d"

end WasmBackend.Span
