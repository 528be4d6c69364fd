/-
The tokens of TOML. A line ends with a newline, with or without a carriage
return, and a byte order mark at the start is skipped.
-/
import WasmBackend.Toml.Text

namespace WasmBackend.Toml

inductive Token where
  /-- Blanks; `single` if it is one space. -/
  | blank (single : Bool)
  | newline
  | comment
  | equals
  | period
  | comma
  | colon
  | plus
  | leftBrace
  | rightBrace
  | leftBracket
  | rightBracket
  /-- Letters, digits, underscores and dashes: a bare key, a number, a boolean, a part of a date. -/
  | bare (text : List Char)
  | string (text : List Char) (multiline : Bool)
deriving DecidableEq, Repr

def isBare (c : Char) : Bool := c.isAlphanum || c = '-' || c = '_'

/-- Joins a carriage return with the newline after it. -/
def joinLineEnds : List Char → List Char
  | '\r' :: '\n' :: cs => '\n' :: joinLineEnds cs
  | c :: cs => c :: joinLineEnds cs
  | [] => []

def dropMark : List Char → List Char
  | '\ufeff' :: cs => cs
  | cs => cs

namespace Token

def ofText (multiline : Bool) (r : List Char × List Char) : Token × List Char :=
  (string r.1 multiline, r.2)

/-- The token of a double quote and what follows. -/
def ofDoubleQuote? (cs : List Char) : Option (Token × List Char) :=
  match cs with
  | '"' :: '"' :: rest => (multiBasic? .text (opened rest)).map (ofText true)
  | '"' :: rest => some (string [] false, rest)
  | _ => (basic? cs).map (ofText false)

/-- The token of a single quote and what follows. -/
def ofSingleQuote? (cs : List Char) : Option (Token × List Char) :=
  match cs with
  | '\'' :: '\'' :: rest => (multiLiteral? (opened rest)).map (ofText true)
  | '\'' :: rest => some (string [] false, rest)
  | _ => (literal? cs).map (ofText false)

/-- The token that starts with `c`, and what follows it. -/
def next? (c : Char) (cs : List Char) : Option (Token × List Char) :=
  match c with
  | '\n' => some (newline, cs)
  | '=' => some (equals, cs)
  | '.' => some (period, cs)
  | ',' => some (comma, cs)
  | ':' => some (colon, cs)
  | '+' => some (plus, cs)
  | '\x7b' => some (leftBrace, cs)
  | '\x7d' => some (rightBrace, cs)
  | '[' => some (leftBracket, cs)
  | ']' => some (rightBracket, cs)
  | '#' => some (comment, cs.dropWhile fun c => c = '\t' || 0x20 ≤ c.toNat)
  | '"' => ofDoubleQuote? cs
  | '\'' => ofSingleQuote? cs
  | c =>
    if isBlank c then
      some (blank (c = ' ' && (cs.takeWhile isBlank).isEmpty), cs.dropWhile isBlank)
    else if isBare c then some (bare (c :: cs.takeWhile isBare), cs.dropWhile isBare)
    else none

/-- All tokens, if every character belongs to one. A token never gives characters back. -/
def all? (cs : List Char) : Option (List Token) :=
  match cs with
  | [] => some []
  | c :: cs => do
    let (t, rest) ← next? c cs
    if rest.length ≤ cs.length then return t :: (← all? rest) else none
termination_by cs.length

def ofString? (text : String) : Option (List Token) := all? (joinLineEnds (dropMark text.toList))

end Token

end WasmBackend.Toml
