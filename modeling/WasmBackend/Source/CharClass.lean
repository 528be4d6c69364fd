/-
Classes of characters, given by ranges of code points.
-/
namespace WasmBackend.Text

/-- The first and the last code point of each range, in ascending order and apart. -/
structure CharClass where
  ranges : List (Nat × Nat)

namespace CharClass

def contains (k : CharClass) (c : Char) : Bool :=
  k.ranges.any fun r => r.1 ≤ c.toNat && c.toNat ≤ r.2

/-- Whether each range has a code point and leaves a gap to the next. -/
def ascend : List (Nat × Nat) → Bool
  | [] => true
  | [r] => r.1 ≤ r.2
  | r :: s :: rest => r.1 ≤ r.2 && r.2 + 1 < s.1 && ascend (s :: rest)

end CharClass

end WasmBackend.Text
