/-
The decimal that stands for a double rounds to that double
(`shortest_rounds`), and to no other (`Rounds.unique`).

Doubles without their sign are counted by their bits (`rank`). The reals that
round to one of them form an interval, and these intervals lie side by side:
the upper end of one is the lower end of the next (`highAt_eq_lowAt`). An end
belongs to the double whose mantissa is even, so to one of the two.
-/
import Mathlib
import WasmBackend.Double.Shortest

namespace WasmBackend.Double

/-! ## Doubles by rank -/

/-- The bits of a double but for the sign. -/
def rank (x : Double) : Nat := x.toNat % 2 ^ 63

def mantissaAt (b : Nat) : Nat := if b / 2 ^ 52 = 0 then b % 2 ^ 52 else b % 2 ^ 52 + 2 ^ 52

def exponentAt (b : Nat) : Int := if b / 2 ^ 52 = 0 then -1074 else (b / 2 ^ 52 : Nat) - 1075

def narrowAt (b : Nat) : Bool := b % 2 ^ 52 = 0 && 1 < b / 2 ^ 52

theorem kind_eq (x : Double) : x.kind =
    if x.rank / 2 ^ 52 = 2047 then if x.rank % 2 ^ 52 = 0 then .infinite x.msb else .nan
    else .finite x.msb (mantissaAt x.rank) (exponentAt x.rank) (narrowAt x.rank) := by
  have hfield : (x >>> fractionWidth).toNat % 2048 = x.rank / 2 ^ 52 := by
    rw [BitVec.toNat_ushiftRight, Nat.shiftRight_eq_div_pow, rank, fractionWidth]
    omega
  have hfraction : x.toNat % 2 ^ 52 = x.rank % 2 ^ 52 := by
    unfold rank
    omega
  have hpow : Nat.pow 2 fractionWidth = 2 ^ 52 := rfl
  simp only [kind, hfield, hpow, hfraction, mantissaAt, exponentAt, narrowAt]
  split
  · rfl
  · by_cases hzero : x.rank / 2 ^ 52 = 0
    · simp only [hzero, if_true]
      simp
    · simp only [hzero, if_false]

theorem eq_of_rank {x y : Double} (hrank : x.rank = y.rank) (hsign : x.msb = y.msb) : x = y := by
  rw [rank, rank] at hrank
  rw [BitVec.msb_eq_decide, BitVec.msb_eq_decide, decide_eq_decide] at hsign
  have hx := x.isLt
  have hy := y.isLt
  exact BitVec.eq_of_toNat_eq (by omega)

theorem mantissaAt_lt (b : Nat) : mantissaAt b < 2 ^ 53 := by
  unfold mantissaAt
  split <;> omega

/-- The next double of the same exponent, or the first one of the next exponent. -/
theorem parts_succ (b : Nat) :
    mantissaAt (b + 1) = mantissaAt b + 1 ∧ exponentAt (b + 1) = exponentAt b ∧ narrowAt (b + 1) = false ∨
      mantissaAt b = 2 ^ 53 - 1 ∧ mantissaAt (b + 1) = 2 ^ 52 ∧ exponentAt (b + 1) = exponentAt b + 1 ∧
        narrowAt (b + 1) = true := by
  unfold mantissaAt exponentAt narrowAt
  by_cases hcarry : (b + 1) % 2 ^ 52 = 0
  · have hfield : (b + 1) / 2 ^ 52 = b / 2 ^ 52 + 1 := by omega
    have hlast : b % 2 ^ 52 = 2 ^ 52 - 1 := by omega
    rw [hfield, hcarry, hlast]
    by_cases hzero : b / 2 ^ 52 = 0
    · left
      rw [hzero]
      decide
    · right
      simp only [hzero, Nat.succ_ne_zero, if_false]
      exact ⟨by omega, by omega, by omega, by grind⟩
  · have hfield : (b + 1) / 2 ^ 52 = b / 2 ^ 52 := by omega
    have hnext : (b + 1) % 2 ^ 52 = b % 2 ^ 52 + 1 := by omega
    left
    rw [hfield, hnext]
    refine ⟨?_, rfl, by simp⟩
    split <;> omega

theorem mantissaAt_succ_mod (b : Nat) : mantissaAt (b + 1) % 2 ≠ mantissaAt b % 2 := by
  rcases parts_succ b with ⟨hm, -⟩ | ⟨hm, hm', -⟩ <;> omega

/-! ## Rounding intervals -/

/-- The lower end of the reals that round to a double, in quarters of the last place. -/
def lowAt (b : Nat) : ℚ := (4 * mantissaAt b - if narrowAt b then 1 else 2) * 2 ^ (exponentAt b - 2)

def highAt (b : Nat) : ℚ := (4 * mantissaAt b + 2) * 2 ^ (exponentAt b - 2)

/-- A number rounds to the double of this rank: it is between the ends, or one of them where the
mantissa is even. -/
def Rounds (q : ℚ) (b : Nat) : Prop :=
  if mantissaAt b % 2 = 0 then lowAt b ≤ q ∧ q ≤ highAt b else lowAt b < q ∧ q < highAt b

theorem rounds_of_lt {q : ℚ} {b : Nat} (hlow : lowAt b < q) (hhigh : q < highAt b) : Rounds q b := by
  unfold Rounds
  split
  · exact ⟨hlow.le, hhigh.le⟩
  · exact ⟨hlow, hhigh⟩

theorem Rounds.le {q : ℚ} {b : Nat} (h : Rounds q b) : lowAt b ≤ q ∧ q ≤ highAt b := by
  unfold Rounds at h
  split at h
  · exact h
  · exact ⟨h.1.le, h.2.le⟩

theorem lowAt_lt_highAt (b : Nat) : lowAt b < highAt b := by
  unfold lowAt highAt
  have hpos : (0 : ℚ) < 2 ^ (exponentAt b - 2) := by positivity
  refine mul_lt_mul_of_pos_right ?_ hpos
  split <;> linarith

/-- The intervals lie side by side. -/
theorem highAt_eq_lowAt (b : Nat) : highAt b = lowAt (b + 1) := by
  unfold highAt lowAt
  rcases parts_succ b with ⟨hm, he, hn⟩ | ⟨hm, hm', he, hn⟩
  · rw [hm, he, hn]
    push_cast
    ring
  · have hexp : exponentAt b + 1 - 2 = exponentAt b - 2 + 1 := by ring
    rw [hm, hm', he, hn, hexp, zpow_add_one₀ two_ne_zero, if_pos rfl]
    push_cast
    ring

theorem lowAt_strictMono : StrictMono lowAt :=
  strictMono_nat_of_lt_succ fun b => highAt_eq_lowAt b ▸ lowAt_lt_highAt b

/-- **A number rounds to one double only.** -/
theorem Rounds.unique {q : ℚ} {a b : Nat} (ha : Rounds q a) (hb : Rounds q b) : a = b := by
  -- of two different doubles, the larger one's interval starts where the smaller one's ends, at best
  have hlt {a b : Nat} (hab : a < b) (ha : Rounds q a) (hb : Rounds q b) : False := by
    have hend : highAt a ≤ lowAt b := highAt_eq_lowAt a ▸ lowAt_strictMono.monotone hab
    have hq : q = highAt a := le_antisymm ha.le.2 (hend.trans hb.le.1)
    have hq' : q = lowAt b := le_antisymm (ha.le.2.trans hend) hb.le.1
    have hnext : a + 1 = b := lowAt_strictMono.injective (by rw [← highAt_eq_lowAt, ← hq, hq'])
    have hmod := mantissaAt_succ_mod a
    rw [hnext] at hmod
    unfold Rounds at ha hb
    split at ha
    · split at hb
      · omega
      · exact absurd hq' hb.1.ne'
    · exact absurd hq ha.2.ne
  rcases lt_trichotomy a b with hab | hab | hab
  · exact (hlt hab ha hb).elim
  · exact hab
  · exact (hlt hab hb ha).elim

/-! ## Decimals inside of an interval -/

theorem pow_toNat_div (c : ℚ) (k : Int) : c ^ k.toNat / c ^ (-k).toNat = c ^ k := by
  rcases le_total 0 k with hk | hk
  · have hneg : (-k).toNat = 0 := by omega
    rw [hneg, pow_zero, div_one, ← zpow_natCast, Int.toNat_of_nonneg hk]
  · have hpos : k.toNat = 0 := by omega
    rw [hpos, pow_zero, one_div, ← zpow_natCast, Int.toNat_of_nonneg (by omega), zpow_neg, inv_inv]

/-- The double of this rank, without its sign. -/
def valueAt (b : Nat) : ℚ := 4 * mantissaAt b * 2 ^ (exponentAt b - 2)

theorem lowAt_eq (b : Nat) :
    lowAt b = valueAt b - (if narrowAt b then 1 else 2) * 2 ^ (exponentAt b - 2) := by
  rw [lowAt, valueAt]
  ring

theorem highAt_eq (b : Nat) : highAt b = valueAt b + 2 * 2 ^ (exponentAt b - 2) := by
  rw [highAt, valueAt]
  ring

theorem valueAt_lt (b : Nat) : valueAt b < 2 ^ 55 * 2 ^ (exponentAt b - 2) := by
  have hm : (mantissaAt b : ℚ) < 2 ^ 53 := mod_cast mantissaAt_lt b
  refine mul_lt_mul_of_pos_right ?_ (by positivity)
  linarith

theorem valueAt_of_narrowAt {b : Nat} (h : narrowAt b = true) :
    valueAt b = 2 ^ 54 * 2 ^ (exponentAt b - 2) := by
  have hm : mantissaAt b = 2 ^ 52 := by
    simp only [narrowAt, Bool.and_eq_true, decide_eq_true_eq] at h
    rw [mantissaAt, if_neg (by omega), h.1, Nat.zero_add]
  rw [valueAt, hm]
  push_cast
  ring

/-- The number that a decimal stands for. -/
def Decimal.value (d : Decimal) : ℚ := d.digits * 10 ^ d.exponent

namespace Target

/-- The target of the double of this rank. -/
def ofRank (b : Nat) : Target := ofParts (mantissaAt b) (exponentAt b) (narrowAt b)

theorem inUnits_quotient {n : Nat} {q : ℚ} (hn : (n : ℚ) = q) (e k : Int) :
    ((n * Nat.pow 2 (e - 2).toNat * Nat.pow 10 (-k).toNat : Nat) : ℚ) /
      (Nat.pow 2 (2 - e).toNat * Nat.pow 10 k.toNat : Nat) = q * 2 ^ (e - 2) / 10 ^ k := by
  have htwo := pow_toNat_div 2 (e - 2)
  have hten := pow_toNat_div 10 k
  rw [neg_sub] at htwo
  rw [← htwo, ← hten, ← hn]
  push_cast [Nat.pow_eq]
  field_simp

section Units

variable (b : Nat) (k : Int)

theorem den_pos : 0 < ((ofRank b).inUnits k).den :=
  Nat.mul_pos (Nat.pow_pos (by omega)) (Nat.pow_pos (by omega))

theorem num_div : (((ofRank b).inUnits k).num : ℚ) / ((ofRank b).inUnits k).den = valueAt b / 10 ^ k :=
  inUnits_quotient (by push_cast; rfl) _ k

theorem high_div : (((ofRank b).inUnits k).high : ℚ) / ((ofRank b).inUnits k).den = highAt b / 10 ^ k :=
  inUnits_quotient (by push_cast; rfl) _ k

theorem low_div (hb : 0 < mantissaAt b) :
    (((ofRank b).inUnits k).low : ℚ) / ((ofRank b).inUnits k).den = lowAt b / 10 ^ k := by
  refine inUnits_quotient ?_ _ k
  rw [Nat.cast_sub (by split <;> omega)]
  push_cast
  rfl

/-- A target admits the decimals that round to its double. -/
theorem admits_iff (hb : 0 < mantissaAt b) (n : Nat) :
    ((ofRank b).inUnits k).admits n = true ↔ Rounds (n * 10 ^ k) b := by
  have hden : (0 : ℚ) < ((ofRank b).inUnits k).den := Nat.cast_pos.2 (den_pos b k)
  have hunit : (0 : ℚ) < 10 ^ k := by positivity
  have hlow := low_div b k hb
  have hhigh := high_div b k
  have hle : ((ofRank b).inUnits k).low ≤ n * ((ofRank b).inUnits k).den ↔ lowAt b ≤ n * 10 ^ k := by
    rw [← Nat.cast_le (α := ℚ), Nat.cast_mul, ← div_le_iff₀ hden, hlow, div_le_iff₀ hunit]
  have hlt : ((ofRank b).inUnits k).low < n * ((ofRank b).inUnits k).den ↔ lowAt b < n * 10 ^ k := by
    rw [← Nat.cast_lt (α := ℚ), Nat.cast_mul, ← div_lt_iff₀ hden, hlow, div_lt_iff₀ hunit]
  have hle' : n * ((ofRank b).inUnits k).den ≤ ((ofRank b).inUnits k).high ↔ n * 10 ^ k ≤ highAt b := by
    rw [← Nat.cast_le (α := ℚ), Nat.cast_mul, ← le_div_iff₀ hden, hhigh, le_div_iff₀ hunit]
  have hlt' : n * ((ofRank b).inUnits k).den < ((ofRank b).inUnits k).high ↔ n * 10 ^ k < highAt b := by
    rw [← Nat.cast_lt (α := ℚ), Nat.cast_mul, ← lt_div_iff₀ hden, hhigh, lt_div_iff₀ hunit]
  have hclosed : ((ofRank b).inUnits k).closed = true ↔ mantissaAt b % 2 = 0 := by
    simp [ofRank, ofParts, inUnits]
  simp only [admits, Rounds, hclosed]
  split
  · rw [Bool.and_eq_true, decide_eq_true_iff, decide_eq_true_iff, hle, hle']
  · rw [Bool.and_eq_true, decide_eq_true_iff, decide_eq_true_iff, hlt, hlt']

end Units

/-! ## Enough digits -/

theorem nearest?_admits {t : Target} {n : Nat} (h : t.nearest? = some n) : t.admits n = true := by
  simp only [nearest?] at h
  split at h
  · split at h <;> simp_all
  · simp_all
  · simp_all
  · simp at h

theorem nearest?_isSome {t : Target} (h : t.admits (t.num / t.den) = true ∨ t.admits (t.num / t.den + 1) = true) :
    t.nearest?.isSome = true := by
  simp only [nearest?]
  split
  · split <;> rfl
  · rfl
  · rfl
  · simp_all

theorem pow_digitCount_le {n : Nat} (hn : n ≠ 0) : 10 ^ (digitCount n - 1) ≤ n := by
  rw [digitCount, if_neg hn]
  rcases Nat.eq_zero_or_pos ((Nat.toDigits 10 n).length - 1) with hone | hmore
  · rw [hone]
    omega
  · refine Nat.le_of_not_lt fun hlt => ?_
    have hlength := (Nat.length_toDigits_le_iff (by omega) hmore).2 hlt
    omega

theorem digitCount_pos {n : Nat} (hn : n ≠ 0) : 0 < digitCount n := by
  rw [digitCount, if_neg hn]
  exact List.length_pos_iff.2 Nat.toDigits_ne_nil

theorem lt_pow_digitCount {n : Nat} (hn : n ≠ 0) : n < 10 ^ digitCount n := by
  have hpos := digitCount_pos hn
  rw [digitCount, if_neg hn] at hpos ⊢
  exact (Nat.length_toDigits_le_iff (by omega) hpos).1 le_rfl

theorem pow_magnitude_le {t : Target} (hnum : 0 < t.num) (hden : 0 < t.den) :
    (10 : ℚ) ^ (t.magnitude - 1) ≤ t.num / t.den := by
  have hden' : (0 : ℚ) < t.den := Nat.cast_pos.2 hden
  rw [le_div_iff₀ hden', magnitude]
  split
  · rename_i hle
    have hquotient : t.num / t.den ≠ 0 := (Nat.div_pos hle hden).ne'
    have hpow := pow_digitCount_le hquotient
    have hpos := digitCount_pos hquotient
    have hexp : (digitCount (t.num / t.den) : Int) - 1 = (digitCount (t.num / t.den) - 1 : Nat) := by omega
    rw [hexp, zpow_natCast]
    have hmul : 10 ^ (digitCount (t.num / t.den) - 1) * t.den ≤ t.num :=
      (Nat.mul_le_mul_right _ hpow).trans (Nat.div_mul_le_self _ _)
    exact_mod_cast hmul
  · rename_i hlt
    have hquotient : (t.den - 1) / t.num ≠ 0 := (Nat.div_pos (by omega) hnum).ne'
    have hpow := lt_pow_digitCount hquotient
    have hmul : t.den ≤ 10 ^ digitCount ((t.den - 1) / t.num) * t.num := by
      have hfloor := Nat.lt_mul_div_succ (t.den - 1) hnum
      have hstep := Nat.mul_le_mul_left t.num hpow
      rw [Nat.mul_comm]
      exact (Nat.le_of_pred_lt hfloor).trans hstep
    have hexp : (1 : Int) - digitCount ((t.den - 1) / t.num) - 1 = -(digitCount ((t.den - 1) / t.num) : Nat) := by
      omega
    rw [hexp, zpow_neg, zpow_natCast, inv_mul_le_iff₀ (by positivity)]
    exact_mod_cast hmul

theorem pow_magnitude_ofRank_le {b : Nat} (hb : 0 < mantissaAt b) :
    (10 : ℚ) ^ ((ofRank b).magnitude - 1) ≤ valueAt b := by
  have hnum : 0 < (ofRank b).num := Nat.mul_pos (by omega) (Nat.pow_pos (by omega))
  have hden : 0 < (ofRank b).den := Nat.pow_pos (by omega)
  have hvalue : ((ofRank b).num : ℚ) / (ofRank b).den = valueAt b := by simpa [inUnits] using num_div b 0
  exact hvalue ▸ pow_magnitude_le hnum hden

theorem floor_num_div {b n : Nat} {k : Int} (hn : n = ((ofRank b).inUnits k).num / ((ofRank b).inUnits k).den) :
    (n : ℚ) * 10 ^ k ≤ valueAt b ∧ valueAt b < (n + 1 : Nat) * 10 ^ k := by
  have hunit : (0 : ℚ) < 10 ^ k := by positivity
  have hden := den_pos b k
  have hden' : (0 : ℚ) < ((ofRank b).inUnits k).den := Nat.cast_pos.2 hden
  rw [← le_div_iff₀ hunit, ← div_lt_iff₀ hunit, ← num_div b k, le_div_iff₀ hden', div_lt_iff₀ hden', hn]
  have hfloor := Nat.lt_mul_div_succ ((ofRank b).inUnits k).num hden
  rw [Nat.mul_comm] at hfloor
  exact ⟨mod_cast Nat.div_mul_le_self _ _, mod_cast hfloor⟩

/-- **Seventeen digits suffice**: one of the two decimals of seventeen digits around a double rounds to it. -/
theorem withDigits?_seventeen {b : Nat} (hb : 0 < mantissaAt b) :
    ((ofRank b).withDigits? 17).isSome = true := by
  set k : Int := (ofRank b).magnitude - 17 with hk
  suffices h : ((ofRank b).inUnits k).nearest?.isSome = true by
    rwa [withDigits?, Option.isSome_map]
  apply nearest?_isSome
  rw [admits_iff b k hb, admits_iff b k hb]
  set n := ((ofRank b).inUnits k).num / ((ofRank b).inUnits k).den with hn
  obtain ⟨hbelow, habove⟩ := floor_num_div hn
  rw [Nat.cast_succ] at habove ⊢
  -- the unit is at most a part in `10 ^ 16` of the double, and its last place at least a part in `2 ^ 53`
  have hsmall : 10 ^ 16 * (10 : ℚ) ^ k ≤ valueAt b := by
    have hexp : (ofRank b).magnitude - 1 = 16 + k := by omega
    have hmagnitude := pow_magnitude_ofRank_le hb
    rwa [hexp, zpow_add₀ (by norm_num)] at hmagnitude
  have hpos : (0 : ℚ) < 2 ^ (exponentAt b - 2) := by positivity
  have hlow := lowAt_eq b
  have hhigh := highAt_eq b
  have hbound := valueAt_lt b
  have hbound' := valueAt_of_narrowAt (b := b)
  by_cases hnarrow : narrowAt b = true
  · right
    specialize hbound' hnarrow
    rw [hnarrow, if_pos rfl] at hlow
    exact rounds_of_lt (by linarith) (by linarith)
  · rw [if_neg hnarrow] at hlow
    by_cases hnear : valueAt b - n * 10 ^ k < 2 * 2 ^ (exponentAt b - 2)
    · exact .inl (rounds_of_lt (by linarith) (by linarith))
    · exact .inr (rounds_of_lt (by linarith) (by linarith))

theorem withDigits?_rounds {b count : Nat} {d : Decimal} (hb : 0 < mantissaAt b)
    (h : (ofRank b).withDigits? count = some d) : Rounds d.value b := by
  rw [withDigits?, Option.map_eq_some_iff] at h
  obtain ⟨n, hn, rfl⟩ := h
  exact (admits_iff b _ hb n).1 (nearest?_admits hn)

end Target

theorem Decimal.value_trim (fuel : Nat) (d : Decimal) : (d.trim fuel).value = d.value := by
  fun_induction Decimal.trim fuel d with
  | case1 d => rfl
  | case2 fuel d hzero ih =>
    have hdigits : d.digits = d.digits / 10 * 10 := by omega
    rw [ih, value, value, zpow_add_one₀ (by norm_num)]
    conv_rhs => rw [hdigits]
    push_cast
    ring
  | case3 fuel d => rfl

/-- **The decimal that stands for a double rounds to it.** -/
theorem shortest_rounds {b : Nat} (hb : 0 < mantissaAt b) :
    Rounds (shortest (mantissaAt b) (exponentAt b) (narrowAt b)).value b := by
  have hfound : ((List.range 17).findSome? fun n => (Target.ofRank b).withDigits? (n + 1)).isSome = true := by
    rw [List.findSome?_isSome_iff]
    exact ⟨16, by simp, Target.withDigits?_seventeen hb⟩
  obtain ⟨d, hd⟩ := Option.isSome_iff_exists.1 hfound
  obtain ⟨n, -, hn⟩ := List.exists_of_findSome?_eq_some hd
  have hshortest : shortest (mantissaAt b) (exponentAt b) (narrowAt b) = d.trim 17 :=
    congrArg (fun found : Option Decimal => (found.getD ⟨0, 0⟩).trim 17) hd
  rw [hshortest, Decimal.value_trim]
  exact Target.withDigits?_rounds hb hn

end WasmBackend.Double
