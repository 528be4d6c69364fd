/-
Scalars read back as they are written. A quoted string is read as the text
that was quoted, whatever its characters are (`basic?_flatMap_escape`), and the
decimal digits of a number as that number (`decimal?_toDigits`).
-/
import Mathlib
import WasmBackend.Settings.Text

namespace WasmBackend.Toml

open Settings (escape hexPair)

/-! ## Strings -/

/-- The character of a code point of two digits. -/
theorem ofCodePoint?_hexPair : ∀ n < 0x80, ofCodePoint? ('0' :: '0' :: hexPair n) = some (Char.ofNat n) := by
  decide

theorem basic?_plain {c : Char} (hquote : c ≠ '"') (hback : c ≠ '\\') (hplain : isPlain c = true) (cs : List Char) :
    basic? (c :: cs) = (basic? cs).map (before [c]) := by
  rw [basic?, if_pos hplain]
  all_goals simp_all

theorem basic?_control {c : Char} (h : c.toNat < 0x80) (cs : List Char) :
    basic? (['\\', 'u', '0', '0'] ++ hexPair c.toNat ++ cs) = (basic? cs).map (before [c]) := by
  have hchar := ofCodePoint?_hexPair c.toNat h
  rw [Char.ofNat_toNat] at hchar
  simp only [hexPair, List.cons_append, List.nil_append] at hchar ⊢
  rw [basic?, hchar]
  cases basic? cs <;> rfl

/-- A character is read as it is written. -/
theorem basic?_escape (c : Char) (cs : List Char) : basic? (escape c ++ cs) = (basic? cs).map (before [c]) := by
  unfold escape
  split
  case h_8 h1 h2 h3 h4 h5 h6 h7 =>
    split
    next hcontrol => exact basic?_control (by omega) cs
    next hplain =>
      have hplain' : isPlain c = true := by
        simp only [isPlain, Bool.or_eq_true, Bool.and_eq_true, decide_eq_true_eq]
        omega
      exact basic?_plain h6 h7 hplain' cs
  all_goals cases hcs : basic? cs <;> simp [basic?, ofEscape?, hcs]

/-- **Quoted text is read as it was before.** -/
theorem basic?_flatMap_escape (cs rest : List Char) : basic? (cs.flatMap escape ++ '"' :: rest) = some (cs, rest) := by
  induction cs with
  | nil => rfl
  | cons c cs ih =>
    rw [List.flatMap_cons, List.append_assoc, basic?_escape, ih]
    rfl

/-! ## Numbers -/

section

variable {cs : List Char} (hcs : ∀ c ∈ cs, c.isDigit = true)

theorem hexValue?_digit {c : Char} (hc : c.isDigit = true) : hexValue? c = some (c.toNat - '0'.toNat) := by
  rw [Char.isDigit, Bool.and_eq_true, decide_eq_true_eq, decide_eq_true_eq] at hc
  exact if_pos hc

include hcs

theorem notMem_digits {c : Char} (hc : c.isDigit = false) : c ∉ cs := by
  intro hmem
  rw [hcs c hmem] at hc
  cases hc

theorem spaced_digits : spaced cs = true := by
  have hnone := notMem_digits hcs (by decide : '_'.isDigit = false)
  clear hcs
  fun_induction spaced cs with
  | case1 => rfl
  | case2 => simp at hnone
  | case3 => rfl
  | case4 => simp at hnone
  | case5 a b cs _ _ ih =>
    simp only [List.mem_cons, not_or] at hnone ih
    simp [ih hnone.2, Ne.symm hnone.2.1]

theorem ofDigits_filterMap : ofDigits 10 (cs.filterMap hexValue?) = Nat.ofDigitChars 10 cs 0 := by
  have hmap : cs.filterMap hexValue? = cs.map fun c => c.toNat - '0'.toNat := by
    rw [← List.filterMap_eq_map]
    exact List.filterMap_congr fun c hc => hexValue?_digit (hcs c hc)
  rw [hmap, ofDigits, List.foldl_map, Nat.ofDigitChars_eq_foldl]

/-- Digits without a needless zero in front. -/
theorem digits?_digits (hne : cs ≠ []) (hzero : cs.head? = some '0' → cs.length = 1) :
    digits? 10 false cs = some (cs.filterMap hexValue?, []) := by
  have hrun (c : Char) (hc : c ∈ cs) : (isDigitOf 10 c || decide (c = '_')) = true := by
    have hdigit := hcs c hc
    rw [Char.isDigit, Bool.and_eq_true, decide_eq_true_eq, decide_eq_true_eq] at hdigit
    have hle : c.toNat ≤ 57 := UInt32.le_iff_toNat_le.1 hdigit.2
    simp only [isDigitOf, hexValue?_digit (hcs c hc), Option.any_some, Bool.or_eq_true, decide_eq_true_eq]
    exact .inl (by simp; omega)
  have htake : cs.takeWhile (fun c => isDigitOf 10 c || decide (c = '_')) = cs := List.takeWhile_eq_self_iff.2 hrun
  have hdrop : cs.dropWhile (fun c => isDigitOf 10 c || decide (c = '_')) = [] := List.dropWhile_eq_nil_iff.2 hrun
  simp only [digits?, htake, hdrop]
  rw [if_neg]
  simpa [hne, spaced_digits hcs] using hzero

/-- Digits are a decimal integer, and no number or date of another form. -/
theorem number?_digits (ts : List Token) :
    Token.number? cs (.newline :: ts) = (decimal? cs).map fun n => (.integer n, .newline :: ts) := by
  have hnone {c : Char} (hc : c.isDigit = false) : c ∉ cs := notMem_digits hcs hc
  unfold Token.number?
  split
  next rest => exact absurd (by simp) (hnone (by decide : 'x'.isDigit = false))
  next rest => exact absurd (by simp) (hnone (by decide : 'o'.isDigit = false))
  next rest => exact absurd (by simp) (hnone (by decide : 'b'.isDigit = false))
  next =>
    have hexponent : (decide ('e' ∈ cs) || decide ('E' ∈ cs)) = false := by
      simp [hnone (by decide : 'e'.isDigit = false), hnone (by decide : 'E'.isDigit = false)]
    have hwords : cs ∉ ["inf".toList, "-inf".toList, "nan".toList, "-nan".toList] := by
      intro hmem
      have hn : 'n' ∈ cs := by
        revert hmem
        simp only [List.mem_cons, List.not_mem_nil, or_false]
        rintro (rfl | rfl | rfl | rfl) <;> decide
      exact hnone (by decide) hn
    rw [hexponent, if_neg (by decide)]
    exact if_neg hwords

theorem scalar?_digits (hne : cs ≠ []) (ts : List Token) :
    Token.scalar? cs (.newline :: ts) = (decimal? cs).map fun n => (.integer n, .newline :: ts) := by
  have hnone {c : Char} (hc : c.isDigit = false) : c ∉ cs := notMem_digits hcs hc
  have hword {word : List Char} {c : Char} (hc : c.isDigit = false) (hmem : c ∈ word) : cs ≠ word := by
    rintro rfl
    exact hnone hc hmem
  have hdash : '-' ∉ cs.tail := fun h => hnone (by decide) (List.mem_of_mem_tail h)
  have hdate : Token.startsDate cs = false := by
    simp [Token.startsDate, hnone (by decide : 'T'.isDigit = false), hnone (by decide : 't'.isDigit = false), hdash]
  have hnumber : Token.numberOrDate? cs (.newline :: ts) = Token.number? cs (.newline :: ts) := by
    simp [Token.numberOrDate?, hdate]
  have htrue : cs ≠ "true".toList := hword (by decide : 't'.isDigit = false) (by decide)
  have hfalse : cs ≠ "false".toList := hword (by decide : 'f'.isDigit = false) (by decide)
  have hfloat : ¬ (decide (cs = "inf".toList) || decide (cs = "nan".toList)) = true := by
    rw [Bool.or_eq_true, decide_eq_true_eq, decide_eq_true_eq, not_or]
    exact ⟨hword (by decide : 'n'.isDigit = false) (by decide), hword (by decide : 'n'.isDigit = false) (by decide)⟩
  unfold Token.scalar?
  rw [if_neg htrue, if_neg hfalse, if_neg hfloat, ← number?_digits hcs, ← hnumber]
  cases cs with
  | nil => exact absurd rfl hne
  | cons c cs =>
    have hc : (decide (c = '-') || c.isDigit) = true := by simp [hcs c (by simp)]
    exact if_pos hc

end

theorem isDigit_toDigits (n : Nat) : ∀ c ∈ Nat.toDigits 10 n, c.isDigit = true :=
  fun c hc => Nat.isDigit_of_mem_toDigits (by decide) (by decide) hc

theorem head?_toDigits {n : Nat} (h : (Nat.toDigits 10 n).head? = some '0') : n = 0 := by
  induction n using Nat.strongRecOn with
  | _ n ih =>
    rcases Nat.lt_or_ge n 10 with hn | hn
    · rw [Nat.toDigits_of_lt_base hn] at h
      simpa using h
    · rw [Nat.toDigits_of_base_le (by decide) hn, List.head?_append_of_ne_nil _ Nat.toDigits_ne_nil] at h
      have := ih (n / 10) (by omega) h
      omega

/-- **A number is read as it is written.** -/
theorem decimal?_toDigits {n : Nat} (h : n ≤ 9223372036854775807) : decimal? (Nat.toDigits 10 n) = some (n : Int) := by
  have hdigits := isDigit_toDigits n
  have hzero : (Nat.toDigits 10 n).head? = some '0' → (Nat.toDigits 10 n).length = 1 := by
    intro hhead
    rw [head?_toDigits hhead]
    rfl
  have hread := digits?_digits hdigits Nat.toDigits_ne_nil hzero
  have hsigned : signed? false (Nat.toDigits 10 n) = some ((false, (Nat.toDigits 10 n).filterMap hexValue?), []) := by
    unfold signed?
    split
    next rest hcs => exact absurd (by simp [hcs]) (notMem_digits hdigits (by decide : '-'.isDigit = false))
    next => rw [hread, Option.map_some]
  have hvalue : toInt (false, (Nat.toDigits 10 n).filterMap hexValue?) = n := by
    rw [toInt, ofDigits_filterMap hdigits, Nat.ofDigitChars_ten_toDigits]
    rfl
  have hfits : fits (n : Int) = true := by
    simp only [fits, Bool.and_eq_true, decide_eq_true_eq]
    omega
  simp [decimal?, hsigned, hvalue, hfits]

end WasmBackend.Toml
