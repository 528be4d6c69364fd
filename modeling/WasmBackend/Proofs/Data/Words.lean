/-
Arithmetic on words. An integer `n` of 31 bits is the word `2n + 1`
(`toNat_pack`), an address `a` under a tag the word `16a + tag`
(`toNat_boxed`), so what code does to words can be read off as arithmetic
on the integers, and boxed words are positive as long as addresses have 27
bits.
-/
import Mathlib
import WasmBackend.Word

namespace WasmBackend.Word

/-- Bits put below a word that was shifted to make room for them. -/
theorem toNat_shiftLeft_or {w b : Word} {k : Nat} (hk : k ≤ 32) (hb : b.toNat < 2 ^ k) :
    (w <<< k ||| b).toNat = 2 ^ k * (w.toNat % 2 ^ (32 - k)) + b.toNat := by
  have hpow : 2 ^ 32 = 2 ^ (32 - k) * 2 ^ k := by
    rw [← Nat.pow_add]
    congr 1
    omega
  rw [BitVec.toNat_or, BitVec.toNat_shiftLeft, Nat.shiftLeft_eq, hpow, Nat.mul_mod_mul_right,
    ← Nat.shiftLeft_eq, ← Nat.shiftLeft_add_eq_or_of_lt hb, Nat.shiftLeft_eq, Nat.mul_comm]

/-! ## Integers -/

/-- An integer of 31 bits in its word. -/
def pack (n : BitVec 31) : Word := int (n.signExtend 32)

theorem toNat_int (n : Word) : (int n).toNat = 2 * (n.toNat % 2 ^ 31) + 1 :=
  toNat_shiftLeft_or (k := 1) (by decide) (by decide)

theorem toNat_signExtend_mod (n : BitVec 31) : (n.signExtend 32).toNat % 2 ^ 31 = n.toNat := by
  have hlt := n.isLt
  rw [BitVec.toNat_signExtend]
  simp only [BitVec.toNat_setWidth]
  split <;> omega

theorem toNat_pack (n : BitVec 31) : (pack n).toNat = 2 * n.toNat + 1 := by
  rw [pack, toNat_int, toNat_signExtend_mod]

theorem int_eq_pack (n : Word) : int n = pack (n.setWidth 31) := by
  apply BitVec.eq_of_toNat_eq
  rw [toNat_int, toNat_pack, BitVec.toNat_setWidth]

theorem toInt_pack (n : BitVec 31) : (pack n).toInt = 2 * n.toInt + 1 := by
  have hlt := n.isLt
  rw [BitVec.toInt_eq_toNat_cond, BitVec.toInt_eq_toNat_cond, toNat_pack]
  split <;> split <;> omega

theorem unpack_pack (a : BitVec 31) : (pack a).unpack = a.signExtend 32 := by
  apply BitVec.eq_of_toInt_eq
  rw [unpack, BitVec.toInt_sshiftRight, toInt_pack, BitVec.toInt_signExtend_of_le (by decide),
    Int.shiftRight_eq_div_pow]
  omega

theorem pack_and_intFlag (n : BitVec 31) : pack n &&& intFlag = 1#32 := by
  apply BitVec.eq_of_toNat_eq
  rw [BitVec.toNat_and, toNat_pack]
  have hone : (intFlag : Word).toNat = 1 := rfl
  rw [hone, Nat.and_one_is_mod]
  simp only [BitVec.toNat_ofNat]
  omega

theorem pack_add (a b : BitVec 31) : pack a + pack b - 1#32 = pack (a + b) := by
  apply BitVec.eq_of_toNat_eq
  have ha := a.isLt
  have hb := b.isLt
  simp only [BitVec.toNat_add, BitVec.toNat_sub, toNat_pack, BitVec.toNat_ofNat]
  omega

theorem pack_sub (a b : BitVec 31) : pack a - pack b + 1#32 = pack (a - b) := by
  apply BitVec.eq_of_toNat_eq
  have ha := a.isLt
  have hb := b.isLt
  simp only [BitVec.toNat_add, BitVec.toNat_sub, toNat_pack, BitVec.toNat_ofNat]
  omega

theorem pack_neg (a : BitVec 31) : 2#32 - pack a = pack (-a) := by
  apply BitVec.eq_of_toNat_eq
  have ha := a.isLt
  simp only [BitVec.toNat_sub, BitVec.toNat_neg, toNat_pack, BitVec.toNat_ofNat]
  omega

theorem pack_mul (a b : BitVec 31) : int (a.signExtend 32 * b.signExtend 32) = pack (a * b) := by
  apply BitVec.eq_of_toNat_eq
  rw [toNat_int, toNat_pack, BitVec.toNat_mul, BitVec.toNat_mul, Nat.mod_mod_of_dvd _ (by decide),
    Nat.mul_mod, toNat_signExtend_mod, toNat_signExtend_mod]

theorem signExtend_ne_intMin (a : BitVec 31) : a.signExtend 32 ≠ BitVec.intMin 32 := by
  intro h
  have hint : a.toInt = (BitVec.intMin 32).toInt := by
    rw [← h, BitVec.toInt_signExtend_of_le (by decide)]
  have hlow := a.le_toInt
  rw [hint] at hlow
  revert hlow
  decide

theorem signExtend_eq_zero {a : BitVec 31} : a.signExtend 32 = 0#32 ↔ a = 0#31 := by
  constructor
  · intro h
    apply BitVec.eq_of_toNat_eq
    rw [← toNat_signExtend_mod, h]
    rfl
  · rintro rfl
    decide

/-- The one quotient that does not fit into 31 bits wraps around, as it does when it is packed. -/
theorem pack_div (a b : BitVec 31) : int ((a.signExtend 32).sdiv (b.signExtend 32)) = pack (a.sdiv b) := by
  have hwide : ((a.signExtend 32).sdiv (b.signExtend 32)).toInt = a.toInt.tdiv b.toInt := by
    rw [BitVec.toInt_sdiv_of_ne_or_ne _ _ (.inl (signExtend_ne_intMin a)),
      BitVec.toInt_signExtend_of_le (by decide), BitVec.toInt_signExtend_of_le (by decide)]
  have hnarrow : (a.sdiv b).toInt = (a.toInt.tdiv b.toInt).bmod (2 ^ 31) := BitVec.toInt_sdiv a b
  rw [← hwide] at hnarrow
  apply BitVec.eq_of_toNat_eq
  rw [toNat_int, toNat_pack]
  congr 2
  generalize (a.signExtend 32).sdiv (b.signExtend 32) = q at hnarrow ⊢
  generalize a.sdiv b = r at hnarrow ⊢
  have hr := r.isLt
  have hq := q.isLt
  rw [BitVec.toInt_eq_toNat_cond, BitVec.toInt_eq_toNat_cond, Int.bmod] at hnarrow
  split at hnarrow <;> split at hnarrow <;> split at hnarrow <;> omega

/-! ## Boxed words -/

theorem bits_lt (t : Tag) : t.bits.toNat < 2 ^ 4 := by
  cases t <;> decide

section

variable {a : Nat} {t : Tag}

theorem toNat_boxed (h : a < 2 ^ 28) : (boxed (.ofNat 32 a) t).toNat = 16 * a + t.bits.toNat := by
  rw [boxed, Tag.shift, toNat_shiftLeft_or (by decide) (bits_lt t), BitVec.toNat_ofNat]
  omega

theorem address_boxed (h : a < 2 ^ 28) : (boxed (.ofNat 32 a) t).address = a := by
  have hb := bits_lt t
  rw [address, BitVec.toNat_ushiftRight, toNat_boxed h, Tag.shift, Nat.shiftRight_eq_div_pow]
  omega

theorem boxed_inj {b : Nat} (ha : a < 2 ^ 28) (hb : b < 2 ^ 28) :
    boxed (.ofNat 32 a) t = boxed (.ofNat 32 b) t ↔ a = b := by
  constructor
  · intro h
    rw [← address_boxed (t := t) ha, h, address_boxed hb]
  · rintro rfl
    rfl

/-- A boxed word of an address with 27 bits is a positive number. -/
theorem toInt_boxed (h : a < 2 ^ 27) : (boxed (.ofNat 32 a) t).toInt = 16 * a + t.bits.toNat := by
  have hb := bits_lt t
  rw [BitVec.toInt_eq_toNat_cond, toNat_boxed (by omega)]
  split <;> omega

theorem bits_pos (t : Tag) : 0 < t.bits.toNat := by
  cases t <;> decide

theorem boxed_ne_zero (h : a < 2 ^ 28) : boxed (.ofNat 32 a) t ≠ 0#32 := by
  intro h0
  have hn := toNat_boxed (t := t) h
  have hb := bits_pos t
  rw [h0] at hn
  simp only [BitVec.toNat_ofNat] at hn
  omega

end

/-- Low bits of a boxed word are those of its tag. -/
theorem boxed_and (a k : Word) (t : Tag) (hk : k.toNat < 2 ^ 4) : boxed a t &&& k = t.bits &&& k := by
  have hclear : a <<< 4 &&& k = 0#32 := by
    apply BitVec.eq_of_getLsbD_eq
    intro i hi
    by_cases h4 : i < 4
    · simp [h4]
    · have hhigh : k.getLsbD i = false :=
        Nat.testBit_lt_two_pow (Nat.lt_of_lt_of_le hk (Nat.pow_le_pow_right (by decide) (by omega)))
      simp [hhigh]
  rw [boxed, Tag.shift, BitVec.and_comm, BitVec.and_or_distrib_left, BitVec.and_comm, hclear,
    BitVec.zero_or, BitVec.and_comm]

theorem boxed_and_mask (a : Word) (t : Tag) : boxed a t &&& Tag.mask = t.bits := by
  rw [boxed_and a _ t (by decide)]
  cases t <;> decide

theorem boxed_and_intFlag (a : Word) (t : Tag) : boxed a t &&& intFlag = 0#32 := by
  rw [boxed_and a _ t (by decide)]
  cases t <;> decide

end WasmBackend.Word
