/-
A double that is no NaN can be read off its text (`Double.legible_text`): the
text is a word, and no two such doubles have the same one.

The argument goes through the number that a text stands for. A decimal is laid
out as a `Numeral`, which its characters determine (`Numeral.chars_injective`)
and which has the value of the decimal (`Decimal.value_numeral`). That value
rounds to one double only.
-/
import WasmBackend.Proofs.Double.Rounding
import WasmBackend.Proofs.Text.Words

namespace WasmBackend.Double

/-! ## Numerals -/

/-- The digits before and after the point, and the power of ten if one is written. Without digits
after it there is no point. -/
structure Numeral where
  whole : List Char
  fraction : List Char
  exponent : Option Int

namespace Numeral

def pointed (fraction : List Char) : List Char := if fraction = [] then [] else '.' :: fraction

def raised : Option Int → List Char
  | none => []
  | some k => 'e' :: (toString k).toList

def chars (n : Numeral) : List Char := n.whole ++ (pointed n.fraction ++ raised n.exponent)

def value (n : Numeral) : ℚ :=
  Nat.ofDigitChars 10 (n.whole ++ n.fraction) 0 * 10 ^ (n.exponent.getD 0 - n.fraction.length)

structure Digital (n : Numeral) : Prop where
  whole : ∀ c ∈ n.whole, c.isDigit = true
  fraction : ∀ c ∈ n.fraction, c.isDigit = true
  start : n.whole ≠ []

theorem raised_head (k : Option Int) : ∀ c ∈ (raised k).head?, c = 'e' := by
  cases k with
  | none => simp [raised]
  | some k => simp [raised]

theorem pointed_head (fraction : List Char) (k : Option Int) :
    ∀ c ∈ (pointed fraction ++ raised k).head?, c.isDigit = false := by
  intro c hc
  rw [pointed] at hc
  split at hc
  · rw [raised_head k c hc]
    decide
  · cases hc
    decide

theorem raised_injective {k l : Option Int} (h : raised k = raised l) : k = l := by
  cases k with
  | none =>
    cases l with
    | none => rfl
    | some l => simp [raised] at h
  | some k =>
    cases l with
    | none => simp [raised] at h
    | some l =>
      rw [raised, raised, List.cons.injEq] at h
      rw [Int.repr_injective (String.toList_inj.1 h.2)]

/-- The characters of a numeral determine it. -/
theorem chars_injective {n n' : Numeral} (hn : n.Digital) (hn' : n'.Digital) (h : n.chars = n'.chars) :
    n = n' := by
  obtain ⟨whole, fraction, k⟩ := n
  obtain ⟨whole', fraction', k'⟩ := n'
  obtain ⟨rfl, hrest⟩ := append_eq_append_of_class hn.whole hn'.whole (pointed_head _ _) (pointed_head _ _) h
  have hends (k : Option Int) : ∀ c ∈ (raised k).head?, c.isDigit = false := by
    intro c hc
    rw [raised_head k c hc]
    decide
  have hpoint (f : List Char) (k l : Option Int) : raised k ≠ '.' :: f ++ raised l := by
    intro heq
    have hdot := raised_head k '.' (by rw [heq]; rfl)
    simp at hdot
  dsimp only [pointed] at hrest
  split at hrest
  · split at hrest
    · subst fraction fraction'
      rw [raised_injective hrest]
    · exact absurd hrest (hpoint _ _ _)
  · split at hrest
    · exact absurd hrest.symm (hpoint _ _ _)
    · obtain ⟨rfl, hexp⟩ := append_eq_append_of_class hn.fraction hn'.fraction (hends k) (hends k')
        (List.cons.inj hrest).2
      rw [raised_injective hexp]

theorem chars_idChar {n : Numeral} (hn : n.Digital) {c : Char} (hc : c ∈ n.chars) : isIdChar c = true := by
  rw [chars, List.mem_append, List.mem_append] at hc
  rcases hc with hwhole | hfraction | hexp
  · exact isIdChar_of_isDigit (hn.whole c hwhole)
  · rw [pointed] at hfraction
    split at hfraction
    · simp at hfraction
    · rcases List.mem_cons.1 hfraction with rfl | hdigit
      · decide
      · exact isIdChar_of_isDigit (hn.fraction c hdigit)
  · cases hk : n.exponent with
    | none => simp [hk, raised] at hexp
    | some k =>
      rw [hk, raised] at hexp
      rcases List.mem_cons.1 hexp with rfl | hdigit
      · decide
      · exact spelled_iff.1 (spelled_int k) c hdigit

theorem chars_head {n : Numeral} (hn : n.Digital) : ∃ c rest, n.chars = c :: rest ∧ c.isDigit = true := by
  obtain ⟨c, more, hwhole⟩ := List.exists_cons_of_ne_nil hn.start
  exact ⟨c, _, by rw [chars, hwhole]; rfl, hn.whole c (hwhole ▸ .head _)⟩

end Numeral

/-! ## Decimals as numerals -/

namespace Decimal

def numeral (d : Decimal) : Numeral :=
  let digits := Nat.toDigits 10 d.digits
  let place := digits.length + d.exponent
  if plainFrom ≤ place ∧ place ≤ plainTo then
    if place ≤ 0 then ⟨['0'], List.replicate (-place).toNat '0' ++ digits, none⟩
    else if digits.length ≤ place then ⟨digits ++ List.replicate (place.toNat - digits.length) '0', ['0'], none⟩
    else ⟨digits.take place.toNat, digits.drop place.toNat, none⟩
  else ⟨digits.take 1, digits.drop 1, some (place - 1)⟩

theorem toList_text (d : Decimal) : d.text.toList = d.numeral.chars := by
  have hdigits : (toString d.digits).toList = Nat.toDigits 10 d.digits := by
    rw [Nat.toString_eq_ofList_toDigits, String.toList_ofList]
  have hlength : (toString d.digits).length = (Nat.toDigits 10 d.digits).length := by
    rw [← String.length_toList, hdigits]
  have hne : Nat.toDigits 10 d.digits ≠ [] := Nat.toDigits_ne_nil
  simp only [text, numeral, plain, scientific, hlength, hdigits]
  split
  · split
    · simp [Numeral.chars, Numeral.pointed, Numeral.raised, hne]
    · split
      · simp [Numeral.chars, Numeral.pointed, Numeral.raised]
      · rename_i hlong
        have hdrop : (((Nat.toDigits 10 d.digits).length : Int) + d.exponent).toNat <
            (Nat.toDigits 10 d.digits).length := by omega
        simp [Numeral.chars, Numeral.pointed, Numeral.raised, hdrop]
  · simp only [Numeral.chars, Numeral.pointed, Numeral.raised]
    split <;> simp_all

theorem digital_numeral (d : Decimal) : d.numeral.Digital := by
  have hdigit {c : Char} (hc : c ∈ Nat.toDigits 10 d.digits) : c.isDigit = true :=
    Nat.isDigit_of_mem_toDigits (by omega) (by omega) hc
  have hzero {n : Nat} {c : Char} (hc : c ∈ List.replicate n '0') : c.isDigit = true := by
    rw [List.eq_of_mem_replicate hc]
    decide
  have hne : Nat.toDigits 10 d.digits ≠ [] := Nat.toDigits_ne_nil
  simp only [numeral]
  split
  · split
    · exact ⟨by simp, fun c hc => (List.mem_append.1 hc).elim hzero hdigit, by simp⟩
    · split
      · exact ⟨fun c hc => (List.mem_append.1 hc).elim hdigit hzero, by simp, by simp [hne]⟩
      · refine ⟨fun c hc => hdigit (List.mem_of_mem_take hc), fun c hc => hdigit (List.mem_of_mem_drop hc), ?_⟩
        rw [ne_eq, List.take_eq_nil_iff]
        rintro (hplace | hnil)
        · omega
        · exact hne hnil
  · exact ⟨fun c hc => hdigit (List.mem_of_mem_take hc), fun c hc => hdigit (List.mem_of_mem_drop hc),
      by simp [hne]⟩

/-- A numeral has the value of the decimal that it writes. -/
theorem value_numeral (d : Decimal) : d.numeral.value = d.value := by
  have hpos : 0 < (Nat.toDigits 10 d.digits).length := List.length_pos_iff.2 Nat.toDigits_ne_nil
  have hdigits : Nat.ofDigitChars 10 (Nat.toDigits 10 d.digits) 0 = d.digits := Nat.ofDigitChars_ten_toDigits
  simp only [numeral]
  split
  · split
    · have hread : Nat.ofDigitChars 10 (['0'] ++ (List.replicate (-(((Nat.toDigits 10 d.digits).length : Int) +
          d.exponent)).toNat '0' ++ Nat.toDigits 10 d.digits)) 0 = d.digits := by
        rw [Nat.ofDigitChars_append, Nat.ofDigitChars_append, Nat.ofDigitChars_replicate_zero]
        exact hdigits
      rw [Numeral.value, hread, value, List.length_append, List.length_replicate]
      congr 2
      simp only [Option.getD_none]
      omega
    · split
      · -- the zeros in front of the point and the one after it make up the power of ten
        rw [Numeral.value, Nat.ofDigitChars_append, Nat.ofDigitChars_append, Nat.ofDigitChars_replicate_zero, hdigits,
          value]
        have hexp : d.exponent = ((((Nat.toDigits 10 d.digits).length : Int) + d.exponent).toNat -
            (Nat.toDigits 10 d.digits).length : Nat) := by omega
        conv_rhs => rw [hexp, zpow_natCast]
        simp [Nat.ofDigitChars]
        field_simp
      · rw [Numeral.value, List.take_append_drop, hdigits, value, List.length_drop]
        congr 2
        simp only [Option.getD_none]
        omega
  · rw [Numeral.value, List.take_append_drop, hdigits, value, List.length_drop]
    congr 2
    simp only [Option.getD_some]
    omega

end Decimal

/-! ## Doubles as numerals -/

/-- The numeral of the finite double of this rank. -/
def numeralAt (b : Nat) : Numeral :=
  if mantissaAt b = 0 then ⟨['0'], ['0'], none⟩
  else (shortest (mantissaAt b) (exponentAt b) (narrowAt b)).numeral

theorem digital_numeralAt (b : Nat) : (numeralAt b).Digital := by
  rw [numeralAt]
  split
  · exact ⟨by simp, by simp, by simp⟩
  · exact Decimal.digital_numeral _

theorem value_numeralAt (b : Nat) : Rounds (numeralAt b).value b := by
  rw [numeralAt]
  split
  · rename_i hzero
    have hvalue : valueAt b = 0 := by simp [valueAt, hzero]
    have hpos : (0 : ℚ) < 2 ^ (exponentAt b - 2) := by positivity
    have hread : (⟨['0'], ['0'], none⟩ : Numeral).value = 0 := by
      simp [Numeral.value, Nat.ofDigitChars]
    have hlow := lowAt_eq b
    have hhigh := highAt_eq b
    rw [hread]
    refine rounds_of_lt ?_ (by linarith)
    split at hlow <;> linarith
  · rename_i hzero
    rw [Decimal.value_numeral]
    exact shortest_rounds (by omega)

/-- The text of a double without its sign. -/
def bare (b : Nat) : List Char := if b / 2 ^ 52 = 2047 then ['i', 'n', 'f'] else (numeralAt b).chars

theorem toList_text {x : Double} (hx : x.kind ≠ .nan) (nan : String) :
    (x.text nan).toList = (if x.msb then ['-'] else []) ++ bare x.rank := by
  rw [kind_eq] at hx
  rw [text, kind_eq, bare]
  by_cases hfield : x.rank / 2 ^ 52 = 2047
  · simp only [hfield, if_true] at hx ⊢
    split at hx
    · rename_i hfraction
      simp only [hfraction, if_true]
      split <;> rfl
    · exact absurd rfl hx
  · simp only [hfield, if_false, numeralAt]
    by_cases hzero : mantissaAt x.rank = 0
    · simp only [hzero, if_true]
      split <;> rfl
    · simp only [hzero, if_false, ← Decimal.toList_text]
      split
      · rw [String.toList_append]
        rfl
      · rfl

theorem bare_head (b : Nat) : ∃ c rest, bare b = c :: rest ∧ c ≠ '-' := by
  rw [bare]
  split
  · exact ⟨'i', _, rfl, by decide⟩
  · obtain ⟨c, rest, hchars, hdigit⟩ := Numeral.chars_head (digital_numeralAt b)
    refine ⟨c, rest, hchars, ?_⟩
    rintro rfl
    simp at hdigit

/-- No two doubles have the same text up to the sign, unless they are NaNs. -/
theorem bare_injective {x y : Double} (hx : x.kind ≠ .nan) (hy : y.kind ≠ .nan) (h : bare x.rank = bare y.rank) :
    x.rank = y.rank := by
  have hinf (b : Nat) : ['i', 'n', 'f'] ≠ (numeralAt b).chars := by
    intro heq
    obtain ⟨c, rest, hchars, hdigit⟩ := Numeral.chars_head (digital_numeralAt b)
    rw [hchars] at heq
    obtain ⟨rfl, -⟩ := List.cons.inj heq
    simp at hdigit
  have hfraction {z : Double} (hz : z.kind ≠ .nan) (hfield : z.rank / 2 ^ 52 = 2047) : z.rank % 2 ^ 52 = 0 := by
    by_contra hne
    rw [kind_eq, if_pos hfield, if_neg hne] at hz
    exact hz rfl
  rw [bare, bare] at h
  split at h
  · rename_i hx'
    split at h
    · rename_i hy'
      have hx'' := hfraction hx hx'
      have hy'' := hfraction hy hy'
      omega
    · exact absurd h (hinf _)
  · split at h
    · exact absurd h.symm (hinf _)
    · have hnumeral := Numeral.chars_injective (digital_numeralAt _) (digital_numeralAt _) h
      exact (value_numeralAt x.rank).unique (hnumeral ▸ value_numeralAt y.rank)

theorem text_injective {nan : String} {x y : Double} (hx : x.kind ≠ .nan) (hy : y.kind ≠ .nan)
    (h : x.text nan = y.text nan) : x = y := by
  have hchars := congrArg String.toList h
  rw [toList_text hx, toList_text hy] at hchars
  obtain ⟨c, rest, hc, hminus⟩ := bare_head x.rank
  obtain ⟨d, rest', hd, hminus'⟩ := bare_head y.rank
  cases hsign : x.msb with
  | false =>
    cases hsign' : y.msb with
    | false =>
      simp only [hsign, hsign', Bool.false_eq_true, if_false, List.nil_append] at hchars
      exact eq_of_rank (bare_injective hx hy hchars) (hsign.trans hsign'.symm)
    | true =>
      simp [hsign, hsign', hc, hminus] at hchars
  | true =>
    cases hsign' : y.msb with
    | false =>
      simp [hsign, hsign', hd, hminus'.symm] at hchars
    | true =>
      simp only [hsign, hsign', if_true, List.cons_append, List.nil_append, List.cons.injEq, true_and] at hchars
      exact eq_of_rank (bare_injective hx hy hchars) (hsign.trans hsign'.symm)

theorem spelled_text {x : Double} (hx : x.kind ≠ .nan) (nan : String) : Spelled (x.text nan) := by
  refine spelled_iff.2 fun c hc => ?_
  rw [toList_text hx, List.mem_append] at hc
  rcases hc with hsign | hbare
  · split at hsign
    · have hminus : c = '-' := by simpa using hsign
      subst hminus
      decide
    · simp at hsign
  · rw [bare] at hbare
    split at hbare
    · have hinf : ∀ c ∈ ['i', 'n', 'f'], isIdChar c = true := by simp [isIdChar]
      exact hinf c hbare
    · exact Numeral.chars_idChar (digital_numeralAt _) hbare

/-- **The text of a double determines it**, if it is no NaN. -/
theorem legible_text (nan : String) : Legible (fun x => (text nan x).toList) (·.kind ≠ .nan) Breaks :=
  legible_word (fun _ hx => spelled_text hx nan) fun _ _ hx hy h => text_injective hx hy h

end WasmBackend.Double
