/-
Values and keys of TOML, read from tokens. A reader returns the tokens that
it leaves. Dates are recognised by their shape only.
-/
import WasmBackend.Toml.Number
import WasmBackend.Toml.Token

namespace WasmBackend.Toml

/-- A value; of floats and dates only that they are there. -/
inductive Value where
  | string (text : String)
  | integer (n : Int)
  | float
  | boolean (b : Bool)
  | date
  | array (items : List Value)
  /-- A table in braces. -/
  | inline (pairs : List (String × Value))
  /-- A table that the parts of dotted keys make up. -/
  | dotted (pairs : List (String × Value))

abbrev Pairs := List (String × Value)

/-- Replaces the value of the first pair with this key. -/
def Pairs.set (key : String) (v : Value) : Pairs → Pairs
  | [] => []
  | (k, w) :: rest => if k = key then (k, v) :: rest else (k, w) :: Pairs.set key v rest

/-- Adds a value under a key of one or more parts. Parts before the last one lead through tables
that dotted keys made, or make new ones. -/
def Pairs.add (pairs : Pairs) (key : String) (more : List String) (v : Value) : Option Pairs :=
  match more with
  | [] => some (pairs ++ [(key, v)])
  | part :: parts =>
    match pairs.lookup key with
    | none => (Pairs.add [] part parts v).map fun inner => pairs ++ [(key, .dotted inner)]
    | some (.dotted inner) => (Pairs.add inner part parts v).map fun t => Pairs.set key (.dotted t) pairs
    | some _ => none

namespace Token

def skipBlank : List Token → List Token
  | .blank _ :: ts => ts
  | ts => ts

/-- The end of a line, or of the text, after a comment or without one. -/
def lineEnd? : List Token → Option (List Token)
  | [] => some []
  | .newline :: ts => some ts
  | [.comment] => some []
  | .comment :: .newline :: ts => some ts
  | _ => none

/-- Skips blanks, newlines and comments that end their line; none at a comment that does not. -/
def skipLines? : List Token → Option (List Token)
  | .blank _ :: ts => skipLines? ts
  | .newline :: ts => skipLines? ts
  | [.comment] => some []
  | .comment :: .newline :: ts => skipLines? ts
  | .comment :: _ => none
  | ts => some ts

/-- One part of a key. -/
def key? : List Token → Option (String × List Token)
  | .bare text :: ts => some (String.ofList text, ts)
  | .string text false :: ts => some (String.ofList text, ts)
  | _ => none

/-- The parts of a dotted key after the first, blanks around them skipped. -/
def moreKeys? : Nat → List Token → Option (List String × List Token)
  | 0, _ => none
  | fuel + 1, ts =>
    match skipBlank ts with
    | .period :: rest => do
      let (part, rest) ← key? (skipBlank rest)
      let (parts, rest) ← moreKeys? fuel rest
      return (part :: parts, rest)
    | rest => some ([], rest)

/-- A key of one or more parts. -/
def dottedKey? (ts : List Token) : Option ((String × List String) × List Token) := do
  let (first, rest) ← key? ts
  let (parts, rest) ← moreKeys? rest.length.succ rest
  return ((first, parts), rest)

def bare? : List Token → Option (List Char × List Token)
  | .bare text :: ts => some (text, ts)
  | _ => none

/-- What follows the `e` of a float: its exponent, which a plus and another token may hold. -/
def exponent? (after : List Char) (ts : List Token) : Option (Int × List Token) := do
  if after.isEmpty then
    let rest := match ts with
      | .plus :: rest => rest
      | _ => ts
    let (text, rest) ← bare? rest
    let (ds, after) ← digits? 10 true text
    if after.isEmpty then return (ofDigits 10 ds, rest) else none
  else
    let (n, after) ← signed? true after
    if after.isEmpty then return (toInt n, ts) else none

/-- A float, given its part before the point and the part after it, if there is one. -/
def float? (whole : List Char) (fraction : Option (List Char)) (ts : List Token) :
    Option (Value × List Token) := do
  let (n, afterWhole) ← signed? false whole
  let (ds, suffix) ← match fraction with
    | none => some ([], afterWhole)
    | some text => if afterWhole.isEmpty then digits? 10 true text else none
  let (e, ts) ← match suffix with
    | [] => some (0, ts)
    | c :: after => if c = 'e' || c = 'E' then exponent? after ts else none
  if isFiniteFloat n.2 ds e then return (.float, ts) else none

/-- A number that starts with this token. -/
def number? (text : List Char) (ts : List Token) : Option (Value × List Token) :=
  match text with
  | '0' :: 'x' :: rest => (based? 16 rest).map fun n => (.integer n, ts)
  | '0' :: 'o' :: rest => (based? 8 rest).map fun n => (.integer n, ts)
  | '0' :: 'b' :: rest => (based? 2 rest).map fun n => (.integer n, ts)
  | _ =>
    if 'e' ∈ text || 'E' ∈ text then float? text none ts
    else
      match ts with
      | .period :: rest => do
        let (fraction, rest) ← bare? rest
        float? text (some fraction) rest
      | _ =>
        if text ∈ ["inf".toList, "-inf".toList, "nan".toList, "-nan".toList] then some (.float, ts)
        else (decimal? text).map fun n => (.integer n, ts)

/-- An optional part of a time of day: a mark and a token. -/
def timePart? (mark : Token) (ts : List Token) : Option (List Token) :=
  match ts with
  | t :: rest => if t = mark then (bare? rest).map (·.2) else some ts
  | [] => some ts

/-- The minutes and what follows them in a time of day. -/
def time? (ts : List Token) : Option (List Token) := do
  let (_, rest) ← bare? ts
  match rest with
  | .colon :: rest => do
    let (_, rest) ← bare? rest
    let rest ← timePart? .period rest
    let rest ← timePart? .plus rest
    timePart? .colon rest
  | _ => none

/-- What follows the first token of a date, or the hour and colon of a time. -/
def date? (colonRead : Bool) (ts : List Token) : Option (Value × List Token) :=
  let rest := match ts with
    | .blank true :: .bare _ :: rest => rest
    | _ => ts
  if colonRead then (time? rest).map fun rest => (.date, rest)
  else
    match rest with
    | .colon :: rest => (time? rest).map fun rest => (.date, rest)
    | _ => some (.date, rest)

/-- Whether a minus right after an `e` makes an exponent. -/
def hasExponent : List Char → Bool
  | c :: d :: cs => ((c = 'e' || c = 'E') && d = '-') || hasExponent (d :: cs)
  | _ => false

/-- Whether a token starts a date: it has a `T`, or a dash that is neither its sign nor that of an
exponent. -/
def startsDate (text : List Char) : Bool :=
  'T' ∈ text || 't' ∈ text || ('-' ∈ text.drop 1 && !hasExponent text)

/-- A number or a date that starts with this token. -/
def numberOrDate? (text : List Char) (ts : List Token) : Option (Value × List Token) :=
  if startsDate text then date? false ts
  else
    match ts with
    | .colon :: rest => date? true rest
    | _ => number? text ts

/-- A value that starts with this token. -/
def scalar? (text : List Char) (ts : List Token) : Option (Value × List Token) :=
  if text = "true".toList then some (.boolean true, ts)
  else if text = "false".toList then some (.boolean false, ts)
  else if text = "inf".toList || text = "nan".toList then numberOrDate? text ts
  else
    match text with
    | c :: _ => if c = '-' || c.isDigit then numberOrDate? text ts else none
    | [] => none

mutual

/-- A value, nested at most `fuel` deep and long. -/
def value? : Nat → List Token → Option (Value × List Token)
  | 0, _ => none
  | fuel + 1, ts =>
    match ts with
    | .string text _ :: rest => some (.string (String.ofList text), rest)
    | .bare text :: rest => scalar? text rest
    | .plus :: .bare text :: rest => number? text rest
    | .leftBrace :: rest =>
      match skipBlank rest with
      | .rightBrace :: rest => some (.inline [], rest)
      | rest => (inline? fuel [] rest).map fun (pairs, rest) => (.inline pairs, rest)
    | .leftBracket :: rest => (array? fuel rest).map fun (items, rest) => (.array items, rest)
    | _ => none

/-- The pairs of a table in braces from one key on, after those that were read before it. -/
def inline? : Nat → Pairs → List Token → Option (Pairs × List Token)
  | 0, _, _ => none
  | fuel + 1, pairs, ts => do
    let ((key, parts), rest) ← dottedKey? ts
    match rest with
    | .equals :: rest => do
      let (v, rest) ← value? fuel (skipBlank rest)
      let pairs ← Pairs.add pairs key parts v
      match skipBlank rest with
      | .rightBrace :: rest => some (pairs, rest)
      | .comma :: rest => inline? fuel pairs (skipBlank rest)
      | _ => none
    | _ => none

/-- The items of an array up to its closing bracket. -/
def array? : Nat → List Token → Option (List Value × List Token)
  | 0, _ => none
  | fuel + 1, ts => do
    match ← skipLines? ts with
    | .rightBracket :: rest => some ([], rest)
    | rest => do
      let (v, rest) ← value? fuel rest
      match ← skipLines? rest with
      | .comma :: rest => do
        let (vs, rest) ← array? fuel rest
        return (v :: vs, rest)
      | .rightBracket :: rest => some ([v], rest)
      | _ => none

end

end Token

end WasmBackend.Toml
