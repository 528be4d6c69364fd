/-
Double-precision numbers as their 64 bits, so that the payload of a NaN and
the sign of a zero are kept. `Double.kind` reads the bits.
-/
namespace WasmBackend

abbrev Double := BitVec 64

namespace Double

/-- What the bits of a double stand for. A finite one is `mantissa * 2 ^ exponent`, negated when
`negative`; it is `narrow` when the gap to the next smaller magnitude is half of the gap to the
next larger one. -/
inductive Kind where
  | nan
  | infinite (negative : Bool)
  | finite (negative : Bool) (mantissa : Nat) (exponent : Int) (narrow : Bool)
deriving DecidableEq, Repr

/-- The place of the lowest bit of the exponent. -/
def fractionWidth : Nat := 52

def kind (x : Double) : Kind :=
  let negative := x.msb
  let field := (x >>> fractionWidth).toNat % 2048
  let fraction := x.toNat % Nat.pow 2 fractionWidth
  if field = 2047 then if fraction = 0 then .infinite negative else .nan
  else if field = 0 then .finite negative fraction (-1074) false
  else .finite negative (fraction + Nat.pow 2 fractionWidth) (field - 1075) (fraction = 0 && 1 < field)

end Double

end WasmBackend
