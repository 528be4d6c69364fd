/-
LEB128: whole numbers as bytes of seven bits each, lowest first, every byte
but the last with its high bit set, and no more bytes than needed.
-/
namespace WasmBackend.Leb128

def unsigned (n : Nat) : List UInt8 :=
  if n < 128 then [n.toUInt8] else (n % 128 + 128).toUInt8 :: unsigned (n / 128)
termination_by n
decreasing_by omega

/-- The last byte's seventh bit is the sign. -/
def signed (n : Int) : List UInt8 :=
  if -64 ≤ n ∧ n < 64 then [(n % 128).toNat.toUInt8]
  else (n % 128 + 128).toNat.toUInt8 :: signed (n / 128)
termination_by n.natAbs
decreasing_by omega

end WasmBackend.Leb128
