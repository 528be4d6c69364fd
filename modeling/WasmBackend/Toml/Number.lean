/-
Numbers in TOML. Digits may be set apart by single underscores; a decimal
integer has no needless zero in front, fits in 64 bits, and a float must be
finite.
-/
import WasmBackend.Toml.Text

namespace WasmBackend.Toml

/-- Whether underscores stand only between digits. -/
def spaced : List Char → Bool
  | [] => true
  | '_' :: _ => false
  | [_] => true
  | _ :: '_' :: c :: cs => spaced (c :: cs)
  | _ :: c :: cs => c ≠ '_' && spaced (c :: cs)

def isDigitOf (base : Nat) (c : Char) : Bool := (hexValue? c).any (· < base)

/-- The digits at the start of a text and what follows them. -/
def digits? (base : Nat) (zeros : Bool) (cs : List Char) : Option (List Nat × List Char) :=
  let inRun (c : Char) : Bool := isDigitOf base c || c = '_'
  let run := cs.takeWhile inRun
  let zeroFirst := run.head? = some '0' && run.length ≠ 1
  if run.isEmpty || !spaced run || (zeroFirst && !zeros) then none
  else some (run.filterMap hexValue?, cs.dropWhile inRun)

/-- Digits after an optional minus. -/
def signed? (zeros : Bool) (cs : List Char) : Option ((Bool × List Nat) × List Char) :=
  match cs with
  | '-' :: rest => (digits? 10 zeros rest).map fun (ds, after) => ((true, ds), after)
  | _ => (digits? 10 zeros cs).map fun (ds, after) => ((false, ds), after)

def toInt (n : Bool × List Nat) : Int :=
  if n.1 then -ofDigits 10 n.2 else ofDigits 10 n.2

/-- Whether an integer has a two's complement form of 64 bits. -/
def fits (n : Int) : Bool := -9223372036854775808 ≤ n && n ≤ 9223372036854775807

/-- A decimal integer. -/
def decimal? (cs : List Char) : Option Int := do
  let (n, after) ← signed? false cs
  if after.isEmpty && fits (toInt n) then some (toInt n) else none

/-- An integer of another base. -/
def based? (base : Nat) (cs : List Char) : Option Int := do
  let (ds, after) ← digits? base true cs
  let n := ofDigits base ds
  if after.isEmpty && fits n then some n else none

/-- The least magnitude that rounds to infinity. -/
def overflow : Nat := Nat.pow 2 1024 - Nat.pow 2 970

/-- Whether `m * 10 ^ e` rounds to a finite double. Far from the bound the number of digits tells. -/
def isFinite (m : Nat) (e : Int) : Bool :=
  let place : Int := (Nat.toDigits 10 m).length + e
  m = 0 || place < 309 || (place < 311 && m * Nat.pow 10 e.toNat < overflow * Nat.pow 10 (-e).toNat)

/-- Whether a decimal with these digits before and after the point and this exponent is finite. -/
def isFiniteFloat (whole fraction : List Nat) (exponent : Int) : Bool :=
  isFinite (ofDigits 10 (whole ++ fraction)) (exponent - fraction.length)

end WasmBackend.Toml
