/-
Bytes of memory: a number that is written is read back, and writing leaves
every other place as it is.
-/
import WasmBackend.Proofs.Machine.Run

namespace WasmBackend.Memory

variable {m m' : Memory} {a count n : Nat}

theorem number_congr : ∀ {count a : Nat}, (∀ i, a ≤ i → i < a + count → m.byte i = m'.byte i) →
    m.number a count = m'.number a count
  | 0, _, _ => rfl
  | count + 1, a, h => by
    simp only [number]
    rw [h a (Nat.le_refl a) (by omega), number_congr fun i hi hlt => h i (by omega) (by omega)]

@[simp] theorem size_setNumber (m : Memory) (a count n : Nat) : (m.setNumber a count n).size = m.size := rfl

theorem byte_setNumber_of_lt {i : Nat} (h : i < a) : (m.setNumber a count n).byte i = m.byte i := by
  have hn : ¬ (a ≤ i ∧ i < a + count) := by omega
  simp [setNumber, hn]

/-- The bytes of a number, from some byte on, are that number without its lower bytes. -/
theorem number_setNumber_from : ∀ (k j : Nat), j + k = count →
    (m.setNumber a count n).number (a + j) k = n / 256 ^ j % 256 ^ k
  | 0, j, _ => by simp [number, Nat.mod_one]
  | k + 1, j, h => by
    have hbyte : (m.setNumber a count n).byte (a + j) = .ofNat (n / 256 ^ j) := by
      have hin : a ≤ a + j ∧ a + j < a + count := by omega
      simp [setNumber, hin]
    have ih : (m.setNumber a count n).number (a + j + 1) k = n / 256 ^ (j + 1) % 256 ^ k :=
      number_setNumber_from k (j + 1) (by omega)
    have hmod : (UInt8.ofNat (n / 256 ^ j)).toNat = n / 256 ^ j % 256 := UInt8.toNat_ofNat'
    rw [number, hbyte, ih, hmod, Nat.pow_succ, ← Nat.div_div_eq_div_mul, Nat.pow_succ,
      Nat.mul_comm (256 ^ k) 256, Nat.mod_mul]

theorem number_setNumber_self : (m.setNumber a count n).number a count = n % 256 ^ count := by
  have h : (m.setNumber a count n).number (a + 0) count = n / 256 ^ 0 % 256 ^ count :=
    number_setNumber_from count 0 (Nat.zero_add count)
  simpa using h

theorem loadWord_setNumber_self {w : Word} (h : a + 4 ≤ m.size) :
    (m.setNumber a 4 w.toNat).loadWord a = .ok w := by
  have hfits : a + 4 ≤ (m.setNumber a 4 w.toNat).size := h
  have hw : w.toNat % 256 ^ 4 = w.toNat := Nat.mod_eq_of_lt w.isLt
  rw [loadWord, if_pos hfits, number_setNumber_self, hw, BitVec.ofNat_toNat, BitVec.setWidth_eq]

theorem loadDouble_setNumber_self {x : Double} (h : a + 8 ≤ m.size) :
    (m.setNumber a 8 x.toNat).loadDouble a = .ok x := by
  have hfits : a + 8 ≤ (m.setNumber a 8 x.toNat).size := h
  have hx : x.toNat % 256 ^ 8 = x.toNat := Nat.mod_eq_of_lt x.isLt
  rw [loadDouble, if_pos hfits, number_setNumber_self, hx, BitVec.ofNat_toNat, BitVec.setWidth_eq]

theorem loadWord_congr (hs : m.size = m'.size) (h : ∀ i, a ≤ i → i < a + 4 → m.byte i = m'.byte i) :
    m.loadWord a = m'.loadWord a := by
  simp only [loadWord, hs, number_congr h]

theorem loadDouble_congr (hs : m.size = m'.size) (h : ∀ i, a ≤ i → i < a + 8 → m.byte i = m'.byte i) :
    m.loadDouble a = m'.loadDouble a := by
  simp only [loadDouble, hs, number_congr h]

/-- Two words next to each other. -/
def setPair (m : Memory) (a : Nat) (x y : Word) : Memory :=
  (m.setNumber a 4 x.toNat).setNumber (a + 4) 4 y.toNat

@[simp] theorem size_setPair (m : Memory) (a : Nat) (x y : Word) : (m.setPair a x y).size = m.size := rfl

theorem byte_setPair_of_lt {x y : Word} {i : Nat} (h : i < a) : (m.setPair a x y).byte i = m.byte i := by
  rw [setPair, byte_setNumber_of_lt (by omega), byte_setNumber_of_lt h]

theorem loadWord_setPair_first {x y : Word} (h : a + 8 ≤ m.size) : (m.setPair a x y).loadWord a = .ok x := by
  rw [← loadWord_setNumber_self (m := m) (a := a) (w := x) (by omega)]
  exact loadWord_congr rfl fun i _ hi => byte_setNumber_of_lt (by omega)

theorem loadWord_setPair_second {x y : Word} (h : a + 8 ≤ m.size) :
    (m.setPair a x y).loadWord (a + 4) = .ok y :=
  loadWord_setNumber_self (by simpa using (by omega : a + 4 + 4 ≤ m.size))

end WasmBackend.Memory
