/-
What is read back from memory. A word that stands for a value is read, at a
type with no functions in it, as something that depends on the value only
(`decodeWithin_represents`), wherever its cells are. `false` and the empty
list are one word, and `true` is the word of an integer, so that they can be
read at each other's types.
-/
import WasmBackend.Proofs.Data.Layout

namespace WasmBackend

/-- No part of a type is a function. -/
def Ty.functionFree : Ty → Bool
  | func _ _ => false
  | list item => item.functionFree
  | _ => true

/-- What a value is read as at a type, following no list for more than `limit` cells. -/
def Datum.read (limit : Nat) : Ty → Datum → Option Value
  | .int, .int n => some (.int (n.signExtend 32))
  | .int, .bool true => some (.int 1)
  | .bool, .bool b => some (.bool b)
  | .bool, .list [] => some (.bool false)
  | .bool, _ => some (.bool true)
  | .float, .float x => some (.float x)
  | .list _, .bool false => some (.list [])
  | .list item, .list ds => if ds.length ≤ limit then (ds.mapM (read limit item)).map .list else none
  | _, _ => none

/-! ## Tags -/

namespace Word

theorem getLsbD_pack (n : BitVec 31) : (pack n).getLsbD 0 = true := by
  simpa [intFlag] using congrArg (·.getLsbD 0) (pack_and_intFlag n)

theorem getLsbD_boxed (a : Word) (t : Tag) : (boxed a t).getLsbD 0 = false := by
  simpa [intFlag] using congrArg (·.getLsbD 0) (boxed_and_intFlag a t)

theorem pack_ne_zero (n : BitVec 31) : pack n ≠ 0#32 := by
  intro h
  have hbit := getLsbD_pack n
  rw [h] at hbit
  cases hbit

end Word

namespace Tag

theorem of?_odd {w : Word} (h : w.getLsbD 0 = true) : of? w = none := if_pos (.inl h)

theorem of?_boxed {a : Nat} (h : a < 2 ^ 28) (t : Tag) : of? (Word.boxed (.ofNat 32 a) t) = some t := by
  have hne : ¬ ((Word.boxed (.ofNat 32 a) t).getLsbD 0 = true ∨ Word.boxed (.ofNat 32 a) t = 0) := by
    rw [Word.getLsbD_boxed]
    exact fun h' => h'.elim nofun (Word.boxed_ne_zero h)
  rw [of?, if_neg hne, Word.boxed_and_mask]
  cases t <;> decide

end Tag

/-! ## Readings -/

namespace Value

variable {α β : Type}

namespace Reading

/-- The result of a reading, if it came to one. -/
def result? (r : Reading α) : Option α := r.run.bind Except.toOption

@[simp] theorem result?_pure (a : α) : result? (pure a : Reading α) = some a := rfl

@[simp] theorem result?_throw (e : DecodeError) : result? (throw e : Reading α) = none := rfl

@[simp] theorem result?_unfinished : result? (unfinished : Reading α) = none := rfl

@[simp] theorem result?_ofExcept (e : Except DecodeError α) : result? (ofExcept e) = e.toOption := rfl

@[simp] theorem result?_bind (r : Reading α) (f : α → Reading β) :
    result? (r >>= f) = r.result?.bind fun a => (f a).result? := by
  rcases r with _ | e | a <;> rfl

@[simp] theorem result?_map (r : Reading α) (f : α → β) : result? (f <$> r) = r.result?.map f := by
  rcases r with _ | e | a <;> rfl

end Reading

theorem unbox_boxed {a : Nat} (h : a < 2 ^ 28) (t u : Tag) :
    (unbox (.boxed (.ofNat 32 a) t) u).toOption = if t = u then some a else none := by
  rw [unbox, Tag.of?_boxed h, Word.address_boxed h]
  simp only [Option.some.injEq]
  split <;> rfl

theorem unbox_odd {w : Word} (h : w.getLsbD 0 = true) (t : Tag) : (unbox w t).toOption = none := by
  rw [unbox, Tag.of?_odd h]
  rfl

/-- A word that is neither empty nor boxed as a list has no items. -/
theorem cells_other (m : Memory) (item : Word → Reading Value) (limit : Nat) {w : Word} (hw : w ≠ Word.emptyList)
    (hbox : (unbox w .list).toOption = none) : (cells m item limit w).result? = none := by
  cases limit with
  | zero => simp [cells, hw]
  | succ limit => simp [cells, hw, hbox]

section

variable {L : Layout} {w : Word} {d : Datum}

/-- The items of a list, one by one. -/
theorem cells_represents {item : Word → Reading Value} {f : Datum → Option Value}
    (hitem : ∀ {w d}, L.Represents w d → (item w).result? = f d) {ds : List Datum} {limit : Nat} {w : Word}
    (h : L.Represents w (.list ds)) :
    (cells L.memory item limit w).result? = if ds.length ≤ limit then ds.mapM f else none := by
  induction ds generalizing limit w with
  | nil =>
    cases h
    cases limit <;> simp [cells]
  | cons d ds ih =>
    cases h with
    | @cons a tail head _ _ _ hpair hhead htail =>
      have hlt := Nat.lt_trans hpair.lt (by decide : 2 ^ 27 < 2 ^ 28)
      have hne : _ ≠ Word.emptyList := Word.boxed_ne_zero (t := .list) hlt
      cases limit with
      | zero => simp [cells, hne]
      | succ limit =>
        have hfirst : (L.memory.loadWord a).toOption = some tail := congrArg Except.toOption hpair.first
        have hsecond : (L.memory.loadWord (a + 4)).toOption = some head := congrArg Except.toOption hpair.second
        rw [cells, if_neg hne]
        simp only [Reading.result?_bind, Reading.result?_ofExcept, unbox_boxed hlt, if_true, Option.bind_some, hfirst,
          hsecond, hitem hhead, ih htail, List.length_cons, Nat.add_le_add_iff_right, List.mapM_cons]
        split <;> simp

/-- **A word is read as the value that it stands for.** -/
theorem decodeWithin_represents (limit : Nat) {ty : Ty} (hty : ty.functionFree = true) (h : L.Represents w d) :
    (decodeWithin L.memory limit ty w).result? = d.read limit ty := by
  have small {a : Nat} (h : a < 2 ^ 27) : a < 2 ^ 28 := Nat.lt_trans h (by decide)
  induction ty generalizing w d with
  | int =>
    have hnone (h : w.getLsbD 0 = false) : (decodeWithin L.memory limit .int w).result? = none := by
      rw [decodeWithin, h]
      rfl
    cases h with
    | int n =>
      rw [decodeWithin, Word.getLsbD_pack, Word.unpack_pack]
      rfl
    | bool b => cases b <;> rfl
    | nil => rfl
    | float => exact hnone (Word.getLsbD_boxed _ _)
    | cons => exact hnone (Word.getLsbD_boxed _ _)
    | closure => exact hnone (Word.getLsbD_boxed _ _)
  | bool =>
    have hread (hne : w ≠ Word.falseWord) : (decodeWithin L.memory limit .bool w).result? = some (.bool true) := by
      simp [decodeWithin, hne]
    cases h with
    | int n => exact hread (Word.pack_ne_zero n)
    | bool b => cases b <;> rfl
    | nil => rfl
    | float _ h => exact hread (Word.boxed_ne_zero (small h.lt))
    | cons _ h => exact hread (Word.boxed_ne_zero (small h.lt))
    | closure h => exact hread (Word.boxed_ne_zero (small (L.place_lt_pow h)))
  | float =>
    have hnone (h : (unbox w .float).toOption = none) : (decodeWithin L.memory limit .float w).result? = none := by
      simp [decodeWithin, h]
    cases h with
    | int n => exact hnone (unbox_odd (Word.getLsbD_pack n) _)
    | bool b => cases b <;> rfl
    | nil => rfl
    | @float a x _ h =>
      have hload : (L.memory.loadDouble a).toOption = some x := congrArg Except.toOption h.value
      simp [decodeWithin, unbox_boxed (small h.lt), hload, Datum.read]
    | cons _ h => exact hnone (unbox_boxed (small h.lt) _ _)
    | closure h => exact hnone (unbox_boxed (small (L.place_lt_pow h)) _ _)
  | list item ih =>
    have hlist : (decodeWithin L.memory limit (.list item) w).result? =
        (cells L.memory (decodeWithin L.memory limit item) limit w).result?.map .list := by
      simp [decodeWithin]
    rw [hlist]
    have hnone (hne : w ≠ Word.emptyList) (hbox : (unbox w .list).toOption = none) :
        (cells L.memory (decodeWithin L.memory limit item) limit w).result?.map Value.list = none := by
      rw [cells_other _ _ _ hne hbox, Option.map_none]
    cases d with
    | list ds =>
      rw [cells_represents (fun h => ih hty h) h, Datum.read]
      split <;> rfl
    | int n =>
      cases h
      exact hnone (Word.pack_ne_zero n) (unbox_odd (Word.getLsbD_pack n) _)
    | bool b =>
      cases h
      cases b with
      | false => cases limit <;> rfl
      | true => exact hnone (by decide) rfl
    | float x =>
      cases h with
      | float _ h => exact hnone (Word.boxed_ne_zero (small h.lt)) (unbox_boxed (small h.lt) _ _)
    | closure i =>
      cases h with
      | closure h =>
        have hlt := small (L.place_lt_pow h)
        exact hnone (Word.boxed_ne_zero hlt) (unbox_boxed hlt _ _)
  | func => cases hty
  | var => cases d <;> rfl

theorem decode?_represents {ty : Ty} (hty : ty.functionFree = true) (h : L.Represents w d) {v : Value} :
    decode? L.memory ty w = some (.ok v) ↔ d.read (L.memory.size + 1) ty = some v := by
  rw [← decodeWithin_represents _ hty h, decode?, Reading.result?]
  cases (decodeWithin L.memory (L.memory.size + 1) ty w).run with
  | none => simp
  | some r => cases r <;> simp [Except.toOption]

end

end Value

end WasmBackend
