/-
The shortest decimal that reads back as a given double: of the decimals with
the fewest digits inside the interval of reals that round to the double, the
nearest one, and of two equally near ones the larger.
-/
import WasmBackend.Double.Basic

namespace WasmBackend.Double

/-- The number `digits * 10 ^ exponent`. -/
structure Decimal where
  digits : Nat
  exponent : Int
deriving DecidableEq, Repr

/-- A positive real `num / den` with the reals `low / den` and `high / den` between which a decimal
reads back as the same double; `closed` says whether these two do as well. -/
structure Target where
  low : Nat
  num : Nat
  high : Nat
  den : Nat
  closed : Bool
deriving Repr

namespace Target

/-- The rounding interval of `mantissa * 2 ^ exponent`, in quarters of the last place. -/
def ofParts (mantissa : Nat) (exponent : Int) (narrow : Bool) : Target :=
  let up := Nat.pow 2 (exponent - 2).toNat
  { low := (4 * mantissa - if narrow then 1 else 2) * up
    num := 4 * mantissa * up
    high := (4 * mantissa + 2) * up
    den := Nat.pow 2 (2 - exponent).toNat
    closed := mantissa % 2 = 0 }

/-- The same target in units of `10 ^ e`. -/
def inUnits (t : Target) (e : Int) : Target :=
  let up := Nat.pow 10 (-e).toNat
  { low := t.low * up, num := t.num * up, high := t.high * up, den := t.den * Nat.pow 10 e.toNat
    closed := t.closed }

/-- Whether the whole number `n` lies in the interval. -/
def admits (t : Target) (n : Nat) : Bool :=
  if t.closed then t.low ≤ n * t.den && n * t.den ≤ t.high
  else t.low < n * t.den && n * t.den < t.high

/-- The admitted whole number next to the target, the nearer of two, the larger of two equally near. -/
def nearest? (t : Target) : Option Nat :=
  let below := t.num / t.den
  let above := below + 1
  match t.admits below, t.admits above with
  | true, true => if t.num - below * t.den < above * t.den - t.num then some below else some above
  | true, false => some below
  | false, true => some above
  | false, false => none

def digitCount (n : Nat) : Nat := if n = 0 then 0 else (Nat.toDigits 10 n).length

/-- The `e` with `10 ^ (e - 1) ≤ num / den < 10 ^ e`. -/
def magnitude (t : Target) : Int :=
  if t.den ≤ t.num then digitCount (t.num / t.den) else 1 - digitCount ((t.den - 1) / t.num)

/-- The admitted decimal with at most `count` digits that is next to the target. -/
def withDigits? (t : Target) (count : Nat) : Option Decimal :=
  let e := t.magnitude - count
  ((t.inUnits e).nearest?).map (⟨·, e⟩)

end Target

/-- Divides trailing zeros out of at most `fuel` places. -/
def Decimal.trim : Nat → Decimal → Decimal
  | 0, d => d
  | fuel + 1, d => if d.digits % 10 = 0 then trim fuel ⟨d.digits / 10, d.exponent + 1⟩ else d

/-- Seventeen digits always suffice, so the default is never taken. -/
def shortest (mantissa : Nat) (exponent : Int) (narrow : Bool) : Decimal :=
  let t := Target.ofParts mantissa exponent narrow
  let found := (List.range 17).findSome? fun n => t.withDigits? (n + 1)
  (found.getD ⟨0, 0⟩).trim 17

end WasmBackend.Double
