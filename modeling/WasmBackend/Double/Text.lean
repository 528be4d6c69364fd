/-
How a double is written: plainly with at least one decimal in the middle of
the range, with an exponent outside of it. Texts of the special values are
the caller's.
-/
import WasmBackend.Double.Shortest

namespace WasmBackend.Double

/-- The magnitudes written plainly: with `0.1 ≤ x / 10 ^ e < 1`, those `e`. -/
def plainFrom : Int := -3

def plainTo : Int := 16

/-- The digits, the point after the first `place` of them. -/
def plain (digits : String) (place : Int) : String :=
  if place ≤ 0 then "0." ++ String.ofList (List.replicate (-place).toNat '0') ++ digits
  else if digits.length ≤ place then
    digits ++ String.ofList (List.replicate (place.toNat - digits.length) '0') ++ ".0"
  else
    String.ofList (digits.toList.take place.toNat) ++ "." ++ String.ofList (digits.toList.drop place.toNat)

/-- One digit before the point, no point if there are no more digits, and the exponent. -/
def scientific (digits : String) (place : Int) : String :=
  let more := digits.toList.drop 1
  String.ofList (digits.toList.take 1) ++ (if more.isEmpty then "" else "." ++ String.ofList more) ++
    "e" ++ toString (place - 1)

/-- The text of a positive decimal. -/
def Decimal.text (d : Decimal) : String :=
  let digits := toString d.digits
  let place := digits.length + d.exponent
  if plainFrom ≤ place ∧ place ≤ plainTo then plain digits place else scientific digits place

/-- The text of a double whose NaN is written `nan`. -/
def text (nan : String) (x : Double) : String :=
  match x.kind with
  | .nan => nan
  | .infinite negative => if negative then "-inf" else "inf"
  | .finite negative mantissa exponent narrow =>
    let magnitude := if mantissa = 0 then "0.0" else (shortest mantissa exponent narrow).text
    if negative then "-" ++ magnitude else magnitude

end WasmBackend.Double
