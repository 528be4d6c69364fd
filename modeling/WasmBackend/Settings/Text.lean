/-
Settings as TOML. Every key is optional when settings are read, unknown keys
and tables are passed over, and a key may be given once. All keys are
written.
-/
import WasmBackend.Settings.Basic
import WasmBackend.Toml.Document

namespace WasmBackend

/-- Why settings can not be read from a file. -/
inductive SettingsReadError where
  /-- There is no file or it is not text. -/
  | unreadable
  /-- It is not TOML, or a key has a value of another kind. -/
  | malformed
  | invalid (e : SettingsError)
deriving DecidableEq, Repr

namespace Settings

/-- The names of each setting. -/
structure Key where
  names : List String

namespace Key

def dispatch : Key := ⟨["dispatchUsingInferredType"]⟩

def reduce : Key := ⟨["reduceInstructions", "reduceFloatInstructions"]⟩

def nameSection : Key := ⟨["enableNameSection"]⟩

def pages : Key := ⟨["memoryPages"]⟩

def exports : Key := ⟨["exportName"]⟩

def all : List Key := [dispatch, reduce, nameSection, pages, exports]

/-- The value of a setting, or a default without one. -/
def read? {α : Type} (key : Key) (default : α) (ofValue? : Toml.Value → Option α)
    (pairs : Toml.Pairs) : Option α :=
  match pairs.filter (·.1 ∈ key.names) with
  | [] => some default
  | [(_, v)] => ofValue? v
  | _ => none

end Key

def ofBoolean? : Toml.Value → Option Bool
  | .boolean b => some b
  | _ => none

def ofInteger? : Toml.Value → Option UInt32
  | .integer n => if 0 ≤ n ∧ n ≤ 4294967295 then some (.ofNat n.toNat) else none
  | _ => none

def ofText? : Toml.Value → Option String
  | .string s => some s
  | _ => none

def ofPairs? (pairs : Toml.Pairs) : Option Settings := do
  return {
    dispatchUsingInferredType := ← Key.dispatch.read? default.dispatchUsingInferredType ofBoolean? pairs
    reduceInstructions := ← Key.reduce.read? default.reduceInstructions ofBoolean? pairs
    enableNameSection := ← Key.nameSection.read? default.enableNameSection ofBoolean? pairs
    memoryPages := ← Key.pages.read? default.memoryPages ofInteger? pairs
    exportName := ← Key.exports.read? default.exportName ofText? pairs }

/-- Whether a table has the name of a setting. -/
def takesKey (h : Toml.Header) : Bool :=
  Key.all.any fun key => h.path.head?.any (· ∈ key.names)

def ofToml? (text : String) : Option Settings := do
  let d ← Toml.Document.ofString? text
  if d.headers.any takesKey then none else ofPairs? d.top

/-- Settings are read first and validated then. -/
def ofToml (text : String) : Except SettingsReadError Settings :=
  match ofToml? text with
  | none => .error .malformed
  | some s => (s.validate.mapError .invalid).map fun _ => s

/-- The settings in a file with these bytes, if there is one. -/
def ofFile (bytes : Option ByteArray) : Except SettingsReadError Settings :=
  match bytes.bind (String.fromUTF8? ·) with
  | none => .error .unreadable
  | some text => ofToml text

/-- Two hexadecimal digits. -/
def hexPair (n : Nat) : List Char :=
  let digit (k : Nat) : Char := if k < 10 then Char.ofNat (k + 48) else Char.ofNat (k + 55)
  [digit (n / 16), digit (n % 16)]

/-- A character in a basic string. -/
def escape (c : Char) : List Char :=
  match c with
  | '\x08' => ['\\', 'b']
  | '\t' => ['\\', 't']
  | '\n' => ['\\', 'n']
  | '\x0c' => ['\\', 'f']
  | '\r' => ['\\', 'r']
  | '"' => ['\\', '"']
  | '\\' => ['\\', '\\']
  | c => if c.toNat < 0x20 ∨ c.toNat = 0x7f then ['\\', 'u', '0', '0'] ++ hexPair c.toNat else [c]

def quote (s : String) : String := "\"" ++ String.ofList (s.toList.flatMap escape) ++ "\""

def boolText (b : Bool) : String := if b then "true" else "false"

def toToml (s : Settings) : String :=
  "dispatchUsingInferredType = " ++ boolText s.dispatchUsingInferredType ++ "\n" ++
  "reduceInstructions = " ++ boolText s.reduceInstructions ++ "\n" ++
  "enableNameSection = " ++ boolText s.enableNameSection ++ "\n" ++
  "memoryPages = " ++ toString s.memoryPages.toNat ++ "\n" ++
  "exportName = " ++ quote s.exportName ++ "\n"

end Settings

end WasmBackend
