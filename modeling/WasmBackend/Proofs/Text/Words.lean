/-
Texts that can be taken apart again. `Legible write good ends` says that what
`write` writes can be told from the text after it, provided that this text is
one of `ends`. Words of identifier characters are legible before anything that
is no such character (`legible_word`), and items that share a beginning are
legible in a row before anything that does not begin like them
(`LegibleAt.flatMap`, `LegibleAt.row`).
-/
import Mathlib
import WasmBackend.Wasm.Text

namespace WasmBackend

variable {α : Type}

/-- What is written for `a` is told from what is written for another value, and from what comes
after it if that is one of `ends`. -/
def LegibleAt (write : α → List Char) (good : α → Prop) (ends : List Char → Prop) (a : α) : Prop :=
  ∀ ⦃b : α⦄ ⦃s t : List Char⦄, good b → ends s → ends t → write a ++ s = write b ++ t → a = b ∧ s = t

def Legible (write : α → List Char) (good : α → Prop) (ends : List Char → Prop) : Prop :=
  ∀ ⦃a : α⦄, good a → LegibleAt write good ends a

/-! ## Words -/

/-- The signs in identifiers of the text format, next to letters and digits. -/
def idSigns : List Char :=
  ['!', '#', '$', '%', '&', '\x27', '*', '+', '-', '.', '/', ':', '<', '=', '>', '?', '@', '\\', '^', '_', '\x60', '|',
    '~']

def isIdChar (c : Char) : Bool := c.isAlphanum || idSigns.contains c

/-- A word: nothing but identifier characters. -/
def Spelled (x : String) : Prop := x.toList.all isIdChar = true

instance (x : String) : Decidable (Spelled x) := inferInstanceAs (Decidable (_ = true))

theorem spelled_iff {x : String} : Spelled x ↔ ∀ c ∈ x.toList, isIdChar c = true := List.all_eq_true

/-- A word ends before this text. -/
def Breaks (s : List Char) : Prop := ∀ c ∈ s.head?, isIdChar c = false

theorem breaks_append {l : List Char} {c : Char} (s : List Char) (hl : l.head? = some c) (hc : isIdChar c = false) :
    Breaks (l ++ s) := by
  intro d hd
  rw [List.head?_append, hl, Option.some_or] at hd
  cases hd
  exact hc

theorem breaks_newline (s : List Char) : Breaks ('\n' :: s) := breaks_append s (l := ['\n']) rfl rfl

theorem append_eq_append_of_class {p : Char → Bool} {a b s t : List Char} (ha : ∀ c ∈ a, p c = true)
    (hb : ∀ c ∈ b, p c = true) (hs : ∀ c ∈ s.head?, p c = false) (ht : ∀ c ∈ t.head?, p c = false)
    (h : a ++ s = b ++ t) : a = b ∧ s = t := by
  induction a generalizing b with
  | nil =>
    cases b with
    | nil => exact ⟨rfl, h⟩
    | cons d b =>
      have hd : p d = false := hs d (by rw [← List.nil_append s, h]; rfl)
      simp [hb d] at hd
  | cons c a ih =>
    cases b with
    | nil =>
      have hc : p c = false := ht c (by rw [← List.nil_append t, ← h]; rfl)
      simp [ha c] at hc
    | cons d b =>
      obtain ⟨rfl, htail⟩ := List.cons.inj h
      obtain ⟨rfl, rfl⟩ := ih (fun e he => ha e (.tail _ he)) (fun e he => hb e (.tail _ he)) htail
      exact ⟨rfl, rfl⟩

/-- Different words are told apart. -/
theorem legible_word {write : α → String} {good : α → Prop} (hspelled : ∀ a, good a → Spelled (write a))
    (hinjective : ∀ a b, good a → good b → write a = write b → a = b) :
    Legible (fun a => (write a).toList) good Breaks := by
  intro a ha b s t hb hs ht h
  obtain ⟨hword, hrest⟩ := append_eq_append_of_class (spelled_iff.1 (hspelled a ha)) (spelled_iff.1 (hspelled b hb))
    hs ht h
  exact ⟨hinjective a b ha hb (String.toList_inj.1 hword), hrest⟩

theorem legible_name : Legible String.toList Spelled Breaks :=
  legible_word (fun _ h => h) fun _ _ _ _ h => h

/-! ## Rows of items -/

section Rows

variable {write : α → List Char} {good : α → Prop} {ends : List Char → Prop} {lead : List Char}

theorem prefix_flatMap (hlead : ∀ a, lead <+: write a) (x : α) (xs : List α) (s : List Char) :
    lead <+: (x :: xs).flatMap write ++ s := by
  rw [List.flatMap_cons, List.append_assoc]
  exact (hlead x).trans (List.prefix_append _ _)

/-- Items that begin with `lead` are legible in a row, which ends before anything else. -/
theorem LegibleAt.flatMap {xs : List α} (hwrite : ∀ a ∈ xs, LegibleAt write good ends a)
    (hlead : ∀ a, lead <+: write a) (hends : ∀ s, lead <+: s → ends s) :
    LegibleAt (List.flatMap write) (∀ a ∈ ·, good a) (fun s => ends s ∧ ¬ lead <+: s) xs := by
  intro ys s t hys hs ht h
  induction xs generalizing ys with
  | nil =>
    cases ys with
    | nil => exact ⟨rfl, h⟩
    | cons y ys =>
      have hrest : s = (y :: ys).flatMap write ++ t := h
      exact absurd (hrest ▸ prefix_flatMap hlead y ys t) hs.2
  | cons x xs ih =>
    have hnext (zs : List α) {u : List Char} (hu : ends u ∧ ¬ lead <+: u) : ends (zs.flatMap write ++ u) := by
      cases zs with
      | nil => exact hu.1
      | cons z zs => exact hends _ (prefix_flatMap hlead z zs u)
    cases ys with
    | nil =>
      have hrest : (x :: xs).flatMap write ++ s = t := h
      exact absurd (hrest ▸ prefix_flatMap hlead x xs s) ht.2
    | cons y ys =>
      rw [List.flatMap_cons, List.flatMap_cons, List.append_assoc, List.append_assoc] at h
      obtain ⟨rfl, htail⟩ := hwrite x (.head _) (hys y (.head _)) (hnext xs hs) (hnext ys ht) h
      obtain ⟨rfl, rfl⟩ := ih (fun a ha => hwrite a (.tail _ ha)) (fun a ha => hys a (.tail _ ha)) htail
      exact ⟨rfl, rfl⟩

theorem Legible.flatMap (hwrite : Legible write good ends) (hlead : ∀ a, lead <+: write a)
    (hends : ∀ s, lead <+: s → ends s) :
    Legible (List.flatMap write) (∀ a ∈ ·, good a) (fun s => ends s ∧ ¬ lead <+: s) :=
  fun _ hxs => LegibleAt.flatMap (fun a ha => hwrite (hxs a ha)) hlead hends

/-- For items that end by themselves. -/
theorem LegibleAt.row {xs : List α} (hwrite : ∀ a ∈ xs, LegibleAt write good (fun _ => True) a)
    (hlead : ∀ a, lead <+: write a) :
    LegibleAt (List.flatMap write) (∀ a ∈ ·, good a) (fun s => ¬ lead <+: s) xs :=
  fun _ _ _ hys hs ht h => LegibleAt.flatMap hwrite hlead (fun _ _ => trivial) hys ⟨trivial, hs⟩ ⟨trivial, ht⟩ h

theorem Legible.row (hwrite : Legible write good (fun _ => True)) (hlead : ∀ a, lead <+: write a) :
    Legible (List.flatMap write) (∀ a ∈ ·, good a) (fun s => ¬ lead <+: s) :=
  fun _ hxs => LegibleAt.row (fun a ha => hwrite (hxs a ha)) hlead

end Rows

/-! ## Numbers -/

theorem isIdChar_of_isDigit {c : Char} (h : c.isDigit = true) : isIdChar c = true := by
  simp [isIdChar, Char.isAlphanum, h]

theorem spelled_nat (n : Nat) : Spelled (toString n) := by
  refine spelled_iff.2 fun c hc => ?_
  rw [Nat.toString_eq_ofList_toDigits, String.toList_ofList] at hc
  exact isIdChar_of_isDigit (Nat.isDigit_of_mem_toDigits (by omega) (by omega) hc)

theorem spelled_int (n : Int) : Spelled (toString n) := by
  rw [Int.toString_eq_repr, Int.repr_eq_if]
  split
  · exact spelled_nat _
  · refine spelled_iff.2 fun c hc => ?_
    rw [String.toList_append, List.mem_append] at hc
    rcases hc with hsign | hdigit
    · have hminus : c = '-' := by simpa using hsign
      subst hminus
      decide
    · exact spelled_iff.1 (spelled_nat _) c hdigit

theorem legible_nat : Legible (fun n : Nat => (toString n).toList) (fun _ => True) Breaks :=
  legible_word (fun n _ => spelled_nat n) fun _ _ _ _ h => Nat.repr_injective h

theorem legible_int : Legible (fun n : Int => (toString n).toList) (fun _ => True) Breaks :=
  legible_word (fun n _ => spelled_int n) fun _ _ _ _ h => Int.repr_injective h

end WasmBackend
