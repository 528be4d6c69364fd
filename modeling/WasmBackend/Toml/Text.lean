/-
Quoted text in TOML: basic strings with escapes between double quotes,
literal strings between single quotes, and both over several lines between
three of them. A reader is given what follows the opening quotes and returns
the text and what follows the closing ones.
-/
namespace WasmBackend.Toml

def isBlank (c : Char) : Bool := c = ' ' || c = '\t'

/-- Characters that stand for themselves in a string. -/
def isPlain (c : Char) : Bool := c = '\t' || (0x20 ≤ c.toNat && c.toNat ≠ 0x7f)

/-- The value of a hexadecimal digit. -/
def hexValue? (c : Char) : Option Nat :=
  if '0' ≤ c ∧ c ≤ '9' then some (c.toNat - '0'.toNat)
  else if 'a' ≤ c ∧ c ≤ 'f' then some (c.toNat - 'a'.toNat + 10)
  else if 'A' ≤ c ∧ c ≤ 'F' then some (c.toNat - 'A'.toNat + 10)
  else none

/-- The number that digits of a base stand for, most significant first. -/
def ofDigits (base : Nat) (digits : List Nat) : Nat := digits.foldl (fun n d => base * n + d) 0

/-- The character whose code point these hexadecimal digits give. -/
def ofCodePoint? (digits : List Char) : Option Char := do
  let n := ofDigits 16 (← digits.mapM hexValue?)
  if n.isValidChar then some (Char.ofNat n) else none

/-- What a letter stands for after a backslash. -/
def ofEscape? (c : Char) : Option Char :=
  match c with
  | '"' => some '"'
  | '\\' => some '\\'
  | 'b' => some '\x08'
  | 'f' => some '\x0c'
  | 'n' => some '\n'
  | 'r' => some '\r'
  | 't' => some '\t'
  | _ => none

/-- Puts characters in front of the text that was read. -/
def before (cs : List Char) (r : List Char × List Char) : List Char × List Char := (cs ++ r.1, r.2)

/-- The rest of a basic string. -/
def basic? : List Char → Option (List Char × List Char)
  | [] => none
  | '"' :: cs => some ([], cs)
  | '\\' :: 'u' :: a :: b :: c :: d :: cs => do
    let x ← ofCodePoint? [a, b, c, d]
    return before [x] (← basic? cs)
  | '\\' :: 'U' :: a :: b :: c :: d :: e :: f :: g :: h :: cs => do
    let x ← ofCodePoint? [a, b, c, d, e, f, g, h]
    return before [x] (← basic? cs)
  | '\\' :: c :: cs => do
    let x ← ofEscape? c
    return before [x] (← basic? cs)
  | c :: cs => if isPlain c then (basic? cs).map (before [c]) else none

/-- The rest of a literal string. -/
def literal? : List Char → Option (List Char × List Char)
  | [] => none
  | c :: cs =>
    if c = '\'' then some ([], cs) else if isPlain c then (literal? cs).map (before [c]) else none

/-- Up to two quotes right after three closing ones belong to the text. -/
def closing (quote : Char) (cs : List Char) : List Char × List Char :=
  match cs with
  | a :: b :: rest =>
    if a = quote then if b = quote then ([a, b], rest) else ([a], b :: rest) else ([], cs)
  | [a] => if a = quote then ([a], []) else ([], cs)
  | [] => ([], [])

/-- The text after three opening quotes, without a newline right after them. -/
def opened (cs : List Char) : List Char :=
  match cs with
  | '\n' :: rest => rest
  | _ => cs

/-- Where a reader is in a multi-line basic string: in the text, after a backslash and blanks that
must end the line, or in the blank space after such an end. -/
inductive Place where
  | text
  | lineEnd
  | gap
deriving DecidableEq, Repr

/-- The rest of a multi-line basic string. -/
def multiBasic? : Place → List Char → Option (List Char × List Char)
  | _, [] => none
  | .lineEnd, c :: cs =>
    if isBlank c then multiBasic? .lineEnd cs else if c = '\n' then multiBasic? .gap cs else none
  | _, '"' :: '"' :: '"' :: cs => some (closing '"' cs)
  | _, '\\' :: 'u' :: a :: b :: c :: d :: cs => do
    let x ← ofCodePoint? [a, b, c, d]
    return before [x] (← multiBasic? .text cs)
  | _, '\\' :: 'U' :: a :: b :: c :: d :: e :: f :: g :: h :: cs => do
    let x ← ofCodePoint? [a, b, c, d, e, f, g, h]
    return before [x] (← multiBasic? .text cs)
  | _, '\\' :: c :: cs =>
    if isBlank c then multiBasic? .lineEnd cs
    else if c = '\n' then multiBasic? .gap cs
    else do
      let x ← ofEscape? c
      return before [x] (← multiBasic? .text cs)
  | place, c :: cs =>
    if place = .gap ∧ (isBlank c = true ∨ c = '\n') then multiBasic? .gap cs
    else if isPlain c || c = '\n' then (multiBasic? .text cs).map (before [c])
    else none

/-- The rest of a multi-line literal string. -/
def multiLiteral? : List Char → Option (List Char × List Char)
  | [] => none
  | '\'' :: '\'' :: '\'' :: cs => some (closing '\'' cs)
  | c :: cs => if isPlain c || c = '\n' then (multiLiteral? cs).map (before [c]) else none

end WasmBackend.Toml
