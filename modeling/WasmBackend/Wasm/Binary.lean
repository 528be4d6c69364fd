/-
The binary format of module images, with an optional section that tells the
names of functions, locals and globals.
-/
import WasmBackend.Wasm.Image
import WasmBackend.Wasm.Leb128

namespace WasmBackend

abbrev Bytes := List UInt8

namespace Binary

def ofName (s : String) : Bytes :=
  Leb128.unsigned s.utf8ByteSize ++ s.toUTF8.data.toList

/-- Items after their count. -/
def vector (items : List Bytes) : Bytes := Leb128.unsigned items.length ++ items.flatten

/-- Contents after their size. -/
def sized (contents : Bytes) : Bytes := Leb128.unsigned contents.length ++ contents

def sectionOf (id : UInt8) (contents : Bytes) : Bytes := id :: sized contents

/-- A section of items, left out if there are none. -/
def optionalSection (id : UInt8) (items : List Bytes) : Bytes :=
  if items.isEmpty then [] else sectionOf id (vector items)

def ofValType : ValType → UInt8
  | .i32 => 0x7f
  | .f64 => 0x7c

def ofSignature (s : Signature) : Bytes :=
  0x60 :: vector (s.params.map fun ty => [ofValType ty]) ++
    vector (s.result.toList.map fun ty => [ofValType ty])

def ofOp : Op → UInt8
  | .unreachable => 0x00
  | .nop => 0x01
  | .ret => 0x0f
  | .drop => 0x1a
  | .select => 0x1b
  | .i32Eqz => 0x45
  | .i32Eq => 0x46
  | .i32Ne => 0x47
  | .i32LtS => 0x48
  | .i32GtS => 0x4a
  | .i32LeS => 0x4c
  | .i32GeS => 0x4e
  | .f64Eq => 0x61
  | .f64Ne => 0x62
  | .f64Lt => 0x63
  | .f64Gt => 0x64
  | .f64Le => 0x65
  | .f64Ge => 0x66
  | .i32Add => 0x6a
  | .i32Sub => 0x6b
  | .i32Mul => 0x6c
  | .i32DivS => 0x6d
  | .i32And => 0x71
  | .i32Or => 0x72
  | .i32Shl => 0x74
  | .i32ShrS => 0x75
  | .i32ShrU => 0x76
  | .f64Neg => 0x9a
  | .f64Add => 0xa0
  | .f64Sub => 0xa1
  | .f64Mul => 0xa2
  | .f64Div => 0xa3

def i32Const (n : Word) : Bytes := 0x41 :: Leb128.signed n.toInt

/-- The eight bytes of a double, lowest first. -/
def ofDouble (x : Double) : Bytes :=
  (List.range 8).map fun i => ((x >>> (8 * i)).toNat % 256).toUInt8

def blockType : Option ValType → UInt8
  | none => 0x40
  | some ty => ofValType ty

/-- The alignment and offset of a memory access. -/
def memArg (ty : ValType) (offset : Nat) : Bytes :=
  (match ty with | .i32 => 2 | .f64 => 3) :: Leb128.unsigned offset

def endMark : UInt8 := 0x0b

def elseMark : UInt8 := 0x05

mutual

def ofInstr : Instr Nat → Bytes
  | .op o => [ofOp o]
  | .i32Const n => i32Const n
  | .f64Const x => 0x44 :: ofDouble x
  | .localGet i => 0x20 :: Leb128.unsigned i
  | .localSet i => 0x21 :: Leb128.unsigned i
  | .localTee i => 0x22 :: Leb128.unsigned i
  | .globalGet i => 0x23 :: Leb128.unsigned i
  | .globalSet i => 0x24 :: Leb128.unsigned i
  | .call i => 0x10 :: Leb128.unsigned i
  | .callIndirect table type => 0x11 :: Leb128.unsigned type ++ Leb128.unsigned table
  | .load .i32 offset => 0x28 :: memArg .i32 offset
  | .load .f64 offset => 0x2b :: memArg .f64 offset
  | .store .i32 offset => 0x36 :: memArg .i32 offset
  | .store .f64 offset => 0x39 :: memArg .f64 offset
  | .cond result thenCode elseCode =>
    let elseBytes := ofInstrs elseCode
    0x04 :: blockType result :: ofInstrs thenCode ++
      (if elseCode.isEmpty then [] else elseMark :: elseBytes) ++ [endMark]
termination_by structural i => i

def ofInstrs : List (Instr Nat) → Bytes
  | [] => []
  | i :: is => ofInstr i ++ ofInstrs is
termination_by structural is => is

end

/-- Locals one by one, then the body. -/
def ofCode (f : Image.Func) : Bytes :=
  sized (vector (f.locals.map fun ty => [0x01, ofValType ty]) ++ ofInstrs f.body ++ [endMark])

def ofTable (size : Nat) : Bytes := 0x70 :: 0x01 :: Leb128.unsigned size ++ Leb128.unsigned size

def ofMemory (pages : Nat) : Bytes := 0x00 :: Leb128.unsigned pages

def ofGlobal (g : Bool × Word) : Bytes :=
  0x7f :: (if g.1 then 0x01 else 0x00) :: i32Const g.2 ++ [endMark]

def ofExportKind : ExportKind → UInt8
  | .func => 0x00
  | .memory => 0x02
  | .global => 0x03

def ofExport (e : Image.Export) : Bytes :=
  ofName e.name ++ ofExportKind e.kind :: Leb128.unsigned e.target

def ofElem (e : Image.Elem) : Bytes :=
  0x02 :: Leb128.unsigned e.table ++ i32Const e.offset ++ [endMark, 0x00] ++
    vector (e.funcs.map Leb128.unsigned)

def header : Bytes := [0x00, 0x61, 0x73, 0x6d, 0x01, 0x00, 0x00, 0x00]

def ofImage (image : Image) : Bytes :=
  header ++
  sectionOf 1 (vector (image.signatures.map ofSignature)) ++
  sectionOf 3 (vector (image.funcs.map fun f => Leb128.unsigned f.type)) ++
  optionalSection 4 (image.tables.map ofTable) ++
  optionalSection 5 (image.memories.map ofMemory) ++
  optionalSection 6 (image.globals.map ofGlobal) ++
  sectionOf 7 (vector (image.exports.map ofExport)) ++
  optionalSection 9 (image.elems.map ofElem) ++
  sectionOf 10 (vector (image.funcs.map ofCode))

/-- Names with their positions. -/
def nameMap (names : List String) : Bytes :=
  vector (names.mapIdx fun i name => Leb128.unsigned i ++ ofName name)

def nameSection (image : Image) : Bytes :=
  sectionOf 0 (ofName "name" ++
    sectionOf 1 (nameMap image.funcNames) ++
    sectionOf 2 (vector (image.funcs.mapIdx fun i f => Leb128.unsigned i ++ nameMap f.names)) ++
    sectionOf 7 (nameMap image.globalNames))

end Binary

/-- The binary form of a module, with its name section if `names`. -/
def Module.encode (m : Module) (names : Bool) : Except NameError Bytes :=
  m.resolve.map fun image => Binary.ofImage image ++ if names then Binary.nameSection image else []

end WasmBackend
