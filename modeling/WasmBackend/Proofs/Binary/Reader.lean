/-
Reading the binary format of WebAssembly, as far as modules here use it. A
reader takes what it reads off the front of the bytes.

Readers follow the format and not the writer: a number may take more bytes
than it needs, a section may be left out, and custom sections may stand
anywhere. What a reader makes of written bytes does not depend on what comes
after them (`Reads`), so that readers are put together as writers are.
-/
import Mathlib
import WasmBackend.Wasm.Binary

namespace WasmBackend.Binary

/-- An instruction as the format has it. An `if` with an `else` is another instruction than one
without. -/
inductive Insn where
  | op (o : Op)
  | i32Const (n : Word)
  | f64Const (x : Double)
  | localGet (i : Nat)
  | localSet (i : Nat)
  | localTee (i : Nat)
  | globalGet (i : Nat)
  | globalSet (i : Nat)
  | call (i : Nat)
  | callIndirect (type table : Nat)
  | load (ty : ValType) (align offset : Nat)
  | store (ty : ValType) (align offset : Nat)
  | cond (result : Option ValType) (thenCode : List Insn)
  | condElse (result : Option ValType) (thenCode elseCode : List Insn)

/-- The least and perhaps the greatest size of a table or memory. -/
structure Limits where
  least : Nat
  most : Option Nat
deriving DecidableEq, Repr

structure GlobalEntry where
  ty : ValType
  isMutable : Bool
  init : Word
deriving DecidableEq, Repr

/-- The locals of a function, without its parameters, and its body. -/
structure CodeEntry where
  locals : List ValType
  body : List Insn

/-- What is in the bytes of a module. -/
structure Contents where
  signatures : List Signature
  /-- For each function, the position of its signature. -/
  types : List Nat
  tables : List Limits
  memories : List Limits
  globals : List GlobalEntry
  exports : List Image.Export
  elems : List Image.Elem
  codes : List CodeEntry
  /-- The names and bytes of custom sections. -/
  customs : List (String × Bytes)

abbrev Reader (α : Type) := StateT Bytes Option α

namespace Reader

variable {α : Type}

def byte : Reader UInt8 := fun
  | [] => none
  | b :: bs => some (b, bs)

def expect (b : UInt8) : Reader Unit := do
  if (← byte) = b then pure () else failure

/-- A number of so many bits. A byte has seven of them, and says if there are more. -/
def unsigned : Nat → Bytes → Option (Nat × Bytes)
  | _, [] => none
  | bits, b :: bs =>
    if b.toNat < 128 then if b.toNat < 2 ^ bits then some (b.toNat, bs) else none
    else if 7 < bits then (unsigned (bits - 7) bs).map fun r => (b.toNat - 128 + 128 * r.1, r.2)
    else none

/-- The seventh bit of the last byte is the sign. -/
def signed : Nat → Bytes → Option (Int × Bytes)
  | _, [] => none
  | bits, b :: bs =>
    if b.toNat < 64 then if b.toNat < 2 ^ (bits - 1) then some (b.toNat, bs) else none
    else if b.toNat < 128 then if 128 ≤ b.toNat + 2 ^ (bits - 1) then some (b.toNat - 128, bs) else none
    else if 7 < bits then (signed (bits - 7) bs).map fun r => (b.toNat - 128 + 128 * r.1, r.2)
    else none

def u32 : Reader Nat := unsigned 32

def i32 : Reader Word := do
  let n ← (signed 32 : Reader Int)
  return BitVec.ofInt 32 n

/-- So many bytes as they are. -/
def take (n : Nat) : Reader Bytes := fun bs =>
  if n ≤ bs.length then some (bs.take n, bs.drop n) else none

/-- The number with these bytes, the lowest first. -/
def littleEndian : Bytes → Nat
  | [] => 0
  | b :: bs => b.toNat + 256 * littleEndian bs

def f64 : Reader Double := do
  let bs ← take 8
  return BitVec.ofNat 64 (littleEndian bs)

def times (p : Reader α) : Nat → Reader (List α)
  | 0 => pure []
  | n + 1 => do
    let a ← p
    let as ← times p n
    return a :: as

/-- Items after their count. -/
def vector (p : Reader α) : Reader (List α) := do times p (← u32)

/-- Bytes after their count. -/
def sized : Reader Bytes := do take (← u32)

/-- A reader that has to read all there is. -/
def whole (p : Reader α) (bs : Bytes) : Option α :=
  match p bs with
  | some (a, []) => some a
  | _ => none

/-- What is in bytes after their count. -/
def within (p : Reader α) : Reader α := do
  match whole p (← sized) with
  | some a => return a
  | none => failure

def name : Reader String := do
  match String.fromUTF8? ⟨(← sized).toArray⟩ with
  | some s => return s
  | none => failure

def valType : Reader ValType := do
  match ← byte with
  | 0x7f => return .i32
  | 0x7c => return .f64
  | _ => failure

def signature : Reader Signature := do
  expect 0x60
  let params ← vector valType
  match ← vector valType with
  | [] => return ⟨params, none⟩
  | [result] => return ⟨params, some result⟩
  | _ => failure

def op? : UInt8 → Option Op
  | 0x00 => some .unreachable
  | 0x01 => some .nop
  | 0x0f => some .ret
  | 0x1a => some .drop
  | 0x1b => some .select
  | 0x45 => some .i32Eqz
  | 0x46 => some .i32Eq
  | 0x47 => some .i32Ne
  | 0x48 => some .i32LtS
  | 0x4a => some .i32GtS
  | 0x4c => some .i32LeS
  | 0x4e => some .i32GeS
  | 0x61 => some .f64Eq
  | 0x62 => some .f64Ne
  | 0x63 => some .f64Lt
  | 0x64 => some .f64Gt
  | 0x65 => some .f64Le
  | 0x66 => some .f64Ge
  | 0x6a => some .i32Add
  | 0x6b => some .i32Sub
  | 0x6c => some .i32Mul
  | 0x6d => some .i32DivS
  | 0x71 => some .i32And
  | 0x72 => some .i32Or
  | 0x74 => some .i32Shl
  | 0x75 => some .i32ShrS
  | 0x76 => some .i32ShrU
  | 0x9a => some .f64Neg
  | 0xa0 => some .f64Add
  | 0xa1 => some .f64Sub
  | 0xa2 => some .f64Mul
  | 0xa3 => some .f64Div
  | _ => none

def blockType : Reader (Option ValType) := do
  match ← byte with
  | 0x40 => return none
  | 0x7f => return some .i32
  | 0x7c => return some .f64
  | _ => failure

/-- The rest of an instruction without a block, after its first byte. -/
def plain : UInt8 → Reader Insn
  | 0x10 => do return .call (← u32)
  | 0x11 => do
    let type ← u32
    let table ← u32
    return .callIndirect type table
  | 0x20 => do return .localGet (← u32)
  | 0x21 => do return .localSet (← u32)
  | 0x22 => do return .localTee (← u32)
  | 0x23 => do return .globalGet (← u32)
  | 0x24 => do return .globalSet (← u32)
  | 0x28 => access (.load .i32)
  | 0x2b => access (.load .f64)
  | 0x36 => access (.store .i32)
  | 0x39 => access (.store .f64)
  | 0x41 => do return .i32Const (← i32)
  | 0x44 => do return .f64Const (← f64)
  | b =>
    match op? b with
    | some o => return .op o
    | none => failure
where
  /-- The alignment and offset of a memory access. -/
  access (insn : Nat → Nat → Insn) : Reader Insn := do
    let align ← u32
    let offset ← u32
    return insn align offset

/-- The rest of an `if`, given how to read the instructions of a block and the mark at its end. -/
def branches (block : Reader (List Insn × Bool)) : Reader Insn := do
  let result ← blockType
  match ← block with
  | (yes, false) => return .cond result yes
  | (yes, true) =>
    match ← block with
    | (no, false) => return .condElse result yes no
    | (_, true) => failure

/-- The rest of an instruction, after its first byte. -/
def insn (block : Reader (List Insn × Bool)) (b : UInt8) : Reader Insn :=
  if b = 0x04 then branches block else plain b

/-- Instructions up to the mark that ends their block, and whether that is an `else`. Instructions
nest no deeper, and are no more, than there are bytes. -/
def insns : Nat → Reader (List Insn × Bool)
  | 0 => failure
  | fuel + 1 => do
    let b ← byte
    if b = 0x0b then return ([], false)
    else if b = 0x05 then return ([], true)
    else
      let first ← insn (insns fuel) b
      let (rest, isElse) ← insns fuel
      return (first :: rest, isElse)

/-- A body, up to its end. -/
def body : Reader (List Insn) := do
  match ← insns (← get).length with
  | (is, false) => return is
  | (_, true) => failure

/-- So many locals of one type. -/
def localGroup : Reader (List ValType) := do
  let n ← u32
  let ty ← valType
  return List.replicate n ty

def codeEntry : Reader CodeEntry := within do
  let groups ← vector localGroup
  return ⟨groups.flatten, ← body⟩

def limits : Reader Limits := do
  match ← byte with
  | 0x00 => return ⟨← u32, none⟩
  | 0x01 =>
    let least ← u32
    let most ← u32
    return ⟨least, some most⟩
  | _ => failure

/-- A table of function references. -/
def table : Reader Limits := do
  expect 0x70
  limits

/-- A constant word, as an expression. -/
def constant : Reader Word := do
  expect 0x41
  let n ← i32
  expect 0x0b
  return n

def mutability : Reader Bool := do
  match ← byte with
  | 0x00 => return false
  | 0x01 => return true
  | _ => failure

def global : Reader GlobalEntry := do
  expect 0x7f
  let isMutable ← mutability
  return ⟨.i32, isMutable, ← constant⟩

def exportKind : Reader ExportKind := do
  match ← byte with
  | 0x00 => return .func
  | 0x02 => return .memory
  | 0x03 => return .global
  | _ => failure

def exportEntry : Reader Image.Export := do
  let name ← name
  let kind ← exportKind
  return ⟨name, kind, ← u32⟩

/-- An active segment of functions, for a given table. -/
def elem : Reader Image.Elem := do
  expect 0x02
  let table ← u32
  let offset ← constant
  expect 0x00
  return ⟨table, offset, ← vector u32⟩

/-- Sections up to the end of the bytes, with their contents unread. There are no more of them than
bytes. -/
def sections : Nat → Bytes → Option (List (UInt8 × Bytes))
  | _, [] => some []
  | 0, _ :: _ => none
  | fuel + 1, id :: bs => do
    let (contents, bs) ← sized bs
    let others ← sections fuel bs
    return (id, contents) :: others

/-- Custom sections apart, every section comes once and in its place. -/
def InOrder (sections : List (UInt8 × Bytes)) : Prop :=
  ((sections.map (·.1)).filter (· ≠ 0)).Pairwise (· < ·)

instance (sections : List (UInt8 × Bytes)) : Decidable (InOrder sections) :=
  inferInstanceAs (Decidable (List.Pairwise _ _))

/-- The items of a section, none if it is left out. -/
def items (sections : List (UInt8 × Bytes)) (id : UInt8) (p : Reader α) : Option (List α) :=
  match sections.lookup id with
  | none => some []
  | some contents => whole (vector p) contents

/-- A custom section: its name, and all other bytes. -/
def custom : Reader (String × Bytes) := do
  let name ← name
  let bs ← (fun bs => some (bs, []) : Reader Bytes)
  return (name, bs)

/-- The sections of a module, after its first eight bytes. -/
def moduleSections : Bytes → Option (List (UInt8 × Bytes))
  | 0x00 :: 0x61 :: 0x73 :: 0x6d :: 0x01 :: 0x00 :: 0x00 :: 0x00 :: bs => sections bs.length bs
  | _ => none

def contents (sections : List (UInt8 × Bytes)) : Option Contents := do
  let signatures ← items sections 1 signature
  let types ← items sections 3 u32
  let tables ← items sections 4 table
  let memories ← items sections 5 limits
  let globals ← items sections 6 global
  let exports ← items sections 7 exportEntry
  let elems ← items sections 9 elem
  let codes ← items sections 10 codeEntry
  let customs ← (sections.filter (·.1 = 0)).mapM fun s => whole custom s.2
  return ⟨signatures, types, tables, memories, globals, exports, elems, codes, customs⟩

/-- A module. -/
def module (bytes : Bytes) : Option Contents := do
  let sections ← moduleSections bytes
  if InOrder sections then contents sections else none

end Reader

/-- What the name section says: the name at each position. -/
structure NameMaps where
  functions : List (Nat × String)
  /-- For each function, the names of its parameters and locals. -/
  locals : List (Nat × List (Nat × String))
  globals : List (Nat × String)
deriving DecidableEq, Repr

namespace Reader

def nameEntry : Reader (Nat × String) := do
  let i ← u32
  return (i, ← name)

def localNames : Reader (Nat × List (Nat × String)) := do
  let i ← u32
  return (i, ← vector nameEntry)

/-- The contents of a name section. -/
def nameMaps (bytes : Bytes) : Option NameMaps := do
  let sections ← sections bytes.length bytes
  if InOrder sections then
    return ⟨← items sections 1 nameEntry, ← items sections 2 localNames, ← items sections 7 nameEntry⟩
  else none

end Reader

/-! ## Reading what was written -/

/-- A reader makes `a` of these bytes, whatever follows them, unless they are too many for the
format. -/
def Reads {α : Type} (p : Reader α) (bs : Bytes) (a : α) : Prop :=
  bs.length < 2 ^ 32 → ∀ rest, p (bs ++ rest) = some (a, rest)

namespace Reads

open Reader

variable {α β : Type} {p : Reader α} {bs cs : Bytes} {a : α}

theorem pure (a : α) : Reads (Pure.pure a) [] a := fun _ _ => rfl

theorem bind {f : α → Reader β} {b : β} (hp : Reads p bs a) (hf : Reads (f a) cs b) :
    Reads (p >>= f) (bs ++ cs) b := by
  intro hlen rest
  rw [List.length_append] at hlen
  have happly : (p >>= f) (bs ++ (cs ++ rest)) = (p (bs ++ (cs ++ rest))).bind fun r => f r.1 r.2 := rfl
  rw [List.append_assoc, happly, hp (by omega), Option.bind_some]
  exact hf (by omega) rest

/-- A reader of which only the first part takes bytes. -/
theorem done {f : α → Reader β} {b : β} (hp : Reads p bs a) (hf : Reads (f a) [] b) : Reads (p >>= f) bs b := by
  have hbind := hp.bind hf
  rwa [List.append_nil] at hbind

theorem map {f : α → β} (hp : Reads p bs a) : Reads (p >>= fun a => Pure.pure (f a)) bs (f a) :=
  hp.done (pure (f a))

theorem byte (b : UInt8) : Reads Reader.byte [b] b := fun _ _ => rfl

/-- A reader that looks at one byte first. -/
theorem cons {b : UInt8} {f : UInt8 → Reader β} {c : β} (hf : Reads (f b) cs c) :
    Reads (Reader.byte >>= f) (b :: cs) c :=
  (byte b).bind hf

theorem expect {b : UInt8} {f : Unit → Reader β} {c : β} (hf : Reads (f ()) cs c) :
    Reads (Reader.expect b >>= f) (b :: cs) c := by
  have hb : Reads (Reader.expect b) [b] () := by
    intro _ rest
    change (if b = b then Pure.pure () else failure : Reader Unit) rest = some ((), rest)
    rw [if_pos rfl]
    rfl
  exact hb.bind hf

/-! ### Numbers -/

theorem toNat_toUInt8 {n : Nat} (h : n < 256) : n.toUInt8.toNat = n := by
  simp [Nat.mod_eq_of_lt h]

theorem unsigned_apply {bits n : Nat} (h : n < 2 ^ bits) (rest : Bytes) :
    Reader.unsigned bits (Leb128.unsigned n ++ rest) = some (n, rest) := by
  induction n using Nat.strongRecOn generalizing bits with
  | ind n ih =>
    rw [Leb128.unsigned]
    by_cases hsmall : n < 128
    · have hbyte : n.toUInt8.toNat = n := toNat_toUInt8 (by omega)
      rw [if_pos hsmall, List.singleton_append, Reader.unsigned, hbyte, if_pos hsmall, if_pos h]
    · have hbyte : (n % 128 + 128).toUInt8.toNat = n % 128 + 128 := toNat_toUInt8 (by omega)
      have hbits : 7 < bits := by
        refine Nat.lt_of_not_le fun hle => hsmall (Nat.lt_of_lt_of_le h ?_)
        exact Nat.pow_le_pow_right (by omega) hle
      have hrest : n / 128 < 2 ^ (bits - 7) := by
        have hpow : 2 ^ bits = 2 ^ (bits - 7) * 128 := by
          rw [show (128 : Nat) = 2 ^ 7 from rfl, ← Nat.pow_add]
          congr 1
          omega
        exact Nat.div_lt_of_lt_mul (by omega)
      rw [if_neg hsmall, List.cons_append, Reader.unsigned, hbyte, if_neg (by omega), if_pos hbits,
        ih (n / 128) (by omega) hrest, Option.map_some]
      congr 2
      omega

theorem signed_apply {bits : Nat} {n : Int} (hbits : 0 < bits) (hlow : -2 ^ (bits - 1) ≤ n)
    (hhigh : n < 2 ^ (bits - 1)) (rest : Bytes) :
    Reader.signed bits (Leb128.signed n ++ rest) = some (n, rest) := by
  induction h : n.natAbs using Nat.strongRecOn generalizing bits n with
  | ind k ih =>
    have hcast : ((2 ^ (bits - 1) : Nat) : Int) = 2 ^ (bits - 1) := by simp
    rw [Leb128.signed]
    by_cases hsmall : -64 ≤ n ∧ n < 64
    · have hbyte : (n % 128).toNat.toUInt8.toNat = (n % 128).toNat := toNat_toUInt8 (by omega)
      rw [if_pos hsmall, List.singleton_append, Reader.signed, hbyte]
      by_cases hneg : n < 0
      · rw [if_neg (by omega), if_pos (by omega), if_pos (by omega)]
        congr 2
        omega
      · rw [if_pos (by omega), if_pos (by omega)]
        congr 2
        omega
    · have hbyte : (n % 128 + 128).toNat.toUInt8.toNat = (n % 128 + 128).toNat := toNat_toUInt8 (by omega)
      have hmany : 7 < bits := by
        refine Nat.lt_of_not_le fun hle => hsmall ?_
        have hpow : 2 ^ (bits - 1) ≤ 2 ^ 6 := Nat.pow_le_pow_right (by omega) (by omega)
        omega
      have hpow : (2 : Int) ^ (bits - 1) = 2 ^ (bits - 7 - 1) * 128 := by
        rw [show (128 : Int) = 2 ^ 7 from rfl, ← Int.pow_add]
        congr 1
        omega
      rw [if_neg hsmall, List.cons_append, Reader.signed, hbyte, if_neg (by omega), if_neg (by omega), if_pos hmany,
        ih (n / 128).natAbs (by omega) (by omega) (by omega) (by omega) rfl, Option.map_some]
      congr 2
      omega

theorem u32 {n : Nat} (h : n < 2 ^ 32) : Reads Reader.u32 (Leb128.unsigned n) n := fun _ => unsigned_apply h

theorem i32 (w : Word) : Reads Reader.i32 (Leb128.signed w.toInt) w := by
  have hread : Reads (Reader.signed 32) (Leb128.signed w.toInt) w.toInt := fun _ =>
    signed_apply (by decide) w.le_toInt w.toInt_lt
  have hword : BitVec.ofInt 32 w.toInt = w := BitVec.ofInt_toInt
  have hmap : Reads Reader.i32 (Leb128.signed w.toInt) (BitVec.ofInt 32 w.toInt) := hread.map
  rwa [hword] at hmap

theorem take (bs : Bytes) : Reads (Reader.take bs.length) bs bs := by
  intro _ rest
  simp [Reader.take]

theorem f64 (x : Double) : Reads Reader.f64 (ofDouble x) x := by
  have hnumber : BitVec.ofNat 64 (littleEndian (ofDouble x)) = x := by
    have hlt := x.isLt
    apply BitVec.eq_of_toNat_eq
    simp only [ofDouble, List.range, List.range.loop, List.map_cons, List.map_nil, littleEndian, BitVec.toNat_ofNat,
      BitVec.toNat_ushiftRight, Nat.shiftRight_eq_div_pow, Nat.toUInt8, UInt8.toNat_ofNat']
    omega
  have hmap : Reads Reader.f64 (ofDouble x) (BitVec.ofNat 64 (littleEndian (ofDouble x))) := (take (ofDouble x)).map
  rwa [hnumber] at hmap

/-! ### Items -/

theorem times {γ : Type} (write : γ → Bytes) (value : γ → α) (xs : List γ)
    (h : ∀ x ∈ xs, Reads p (write x) (value x)) :
    Reads (Reader.times p xs.length) (xs.map write).flatten (xs.map value) := by
  induction xs with
  | nil => exact pure []
  | cons x xs ih =>
    obtain ⟨hx, hxs⟩ := List.forall_mem_cons.1 h
    exact hx.bind ((ih hxs).map)

/-- There are no more items than bytes in them. -/
theorem length_le_flatten {items : List Bytes} (h : ∀ x ∈ items, x ≠ []) : items.length ≤ items.flatten.length := by
  induction items with
  | nil => exact Nat.le_refl 0
  | cons x xs ih =>
    obtain ⟨hx, hxs⟩ := List.forall_mem_cons.1 h
    have hpos : 0 < x.length := List.length_pos_iff.2 hx
    have hrest := ih hxs
    rw [List.flatten_cons, List.length_append, List.length_cons]
    omega

theorem vector {γ : Type} {write : γ → Bytes} {value : γ → α} {xs : List γ} (hne : ∀ x ∈ xs, write x ≠ [])
    (h : ∀ x ∈ xs, Reads p (write x) (value x)) :
    Reads (Reader.vector p) (Binary.vector (xs.map write)) (xs.map value) := by
  intro hlen
  have hcount : (xs.map write).length ≤ (xs.map write).flatten.length :=
    length_le_flatten (by simpa using hne)
  have hbound : xs.length < 2 ^ 32 := by
    rw [Binary.vector, List.length_append] at hlen
    rw [List.length_map] at hcount
    omega
  have hread : Reads (Reader.vector p) (Leb128.unsigned (xs.map write).length ++ (xs.map write).flatten)
      (xs.map value) := by
    rw [List.length_map]
    exact (u32 hbound).bind (times write value xs h)
  exact hread hlen

theorem sized_apply (h : bs.length < 2 ^ 32) (rest : Bytes) :
    Reader.sized (Binary.sized bs ++ rest) = some (bs, rest) := by
  have happly (cs : Bytes) : Reader.sized cs = (Reader.u32 cs).bind fun r => Reader.take r.1 r.2 := rfl
  rw [Binary.sized, List.append_assoc, happly, Reader.u32, unsigned_apply h, Option.bind_some]
  exact take bs h rest

theorem sized (bs : Bytes) : Reads Reader.sized (Binary.sized bs) bs := by
  intro hlen
  rw [Binary.sized, List.length_append] at hlen
  exact sized_apply (by omega)

theorem whole (h : Reads p bs a) (hlen : bs.length < 2 ^ 32) : Reader.whole p bs = some a := by
  have hread := h hlen []
  rw [List.append_nil] at hread
  rw [Reader.whole, hread]

theorem within (h : Reads p bs a) : Reads (Reader.within p) (Binary.sized bs) a := by
  intro hlen
  refine (sized bs).done ?_ hlen
  rw [Binary.sized, List.length_append] at hlen
  rw [h.whole (by omega)]
  exact pure a

theorem name (s : String) : Reads Reader.name (ofName s) s := by
  have hbytes : ofName s = Binary.sized s.toUTF8.data.toList := by
    rw [ofName, Binary.sized]
    congr 2
  have htext : String.fromUTF8? ⟨s.toUTF8.data.toList.toArray⟩ = some s := by
    have hvalid : s.toUTF8.IsValidUTF8 := s.isValidUTF8
    rw [Array.toArray_toList, String.fromUTF8?, dif_pos hvalid]
    rfl
  rw [hbytes]
  refine (sized _).done ?_
  rw [htext]
  exact pure s

end Reads

end WasmBackend.Binary
