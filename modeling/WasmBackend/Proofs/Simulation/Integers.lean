/-
**Integer expressions compute in 31 bits** (`lower_arithmetic_wraps`). Sums,
differences and negations work on packed words, products and quotients on
unpacked ones; each wraps around at 32 bits, in a place of its own. What
they leave is always the packed value of the tree with every literal and
every result on the way wrapped around at 31 bits (`Node.value?`), which is
said with plain integers. Code traps only where it divides by zero: the
operands of a division have 31 bits, so that the quotient never overflows.
-/
import WasmBackend.Proofs.Data.Readback
import WasmBackend.Proofs.Lowering.Brackets

namespace WasmBackend

/-! ## Values -/

/-- Integer literals, and what is computed from them with integer operations. -/
inductive Node.Arithmetic : Node → Prop
  | lit (span : Span) (n : Word) : Arithmetic (.lit span (.int n))
  | neg (span : Span) {operand : Node} : Arithmetic operand → Arithmetic (.unary span .neg operand)
  | op (span : Span) (o : IntOp) {left right : Node} : Arithmetic left → Arithmetic right →
      Arithmetic (.binary span (.int o) left right)

/-- The integer of 31 bits that an integer wraps around to. -/
def wrap (x : Int) : Int := x.bmod (2 ^ 31)

/-- The result of an operation in 31 bits; quotients are rounded towards zero. -/
def IntOp.value? : IntOp → Int → Int → Option Int
  | .add, x, y => some (wrap (x + y))
  | .sub, x, y => some (wrap (x - y))
  | .mul, x, y => some (wrap (x * y))
  | .div, x, y => if y = 0 then none else some (wrap (x.tdiv y))

namespace Node

/-- The value of an arithmetic tree in 31 bits, if nothing is divided by zero. -/
def value? : Node → Option Int
  | .lit _ (.int n) => some (wrap n.toInt)
  | .unary _ .neg operand => operand.value?.map fun x => wrap (-x)
  | .binary _ (.int o) left right => left.value?.bind fun x => right.value?.bind fun y => o.value? x y
  | _ => none
termination_by structural node => node

/-- The divisors in an arithmetic tree. -/
def divisors : Node → List Node
  | .unary _ .neg operand => operand.divisors
  | .binary _ (.int o) left right => left.divisors ++ right.divisors ++ if o = .div then [right] else []
  | _ => []
termination_by structural node => node

end Node

theorem wrap_range (x : Int) : -2 ^ 30 ≤ wrap x ∧ wrap x < 2 ^ 30 := by
  have hlow := Int.le_bmod (x := x) (m := 2 ^ 31) (by decide)
  have hhigh := Int.bmod_lt (x := x) (m := 2 ^ 31) (by decide)
  rw [wrap]
  constructor <;> omega

theorem IntOp.range_value? {o : IntOp} {x y z : Int} (h : o.value? x y = some z) : -2 ^ 30 ≤ z ∧ z < 2 ^ 30 := by
  cases o with
  | add | sub | mul =>
    cases h
    exact wrap_range _
  | div =>
    by_cases hy : y = 0
    · simp [value?, hy] at h
    · simp only [value?, if_neg hy, Option.some.injEq] at h
      exact h ▸ wrap_range _

theorem Node.Arithmetic.range {tree : Node} (h : tree.Arithmetic) {x : Int} (hx : tree.value? = some x) :
    -2 ^ 30 ≤ x ∧ x < 2 ^ 30 := by
  cases h with
  | lit span n =>
    cases hx
    exact wrap_range _
  | neg span _ =>
    obtain ⟨y, -, rfl⟩ := Option.map_eq_some_iff.1 hx
    exact wrap_range _
  | op span o _ _ =>
    obtain ⟨a, -, hx⟩ := Option.bind_eq_some_iff.1 hx
    obtain ⟨b, -, hx⟩ := Option.bind_eq_some_iff.1 hx
    exact o.range_value? hx

theorem IntOp.value?_eq_none {o : IntOp} {x y : Int} : o.value? x y = none ↔ o = .div ∧ y = 0 := by
  cases o <;> simp [value?]

/-- There is no value if and only if some divisor is zero. -/
theorem Node.Arithmetic.value?_eq_none {tree : Node} (h : tree.Arithmetic) :
    tree.value? = none ↔ ∃ d ∈ tree.divisors, d.value? = some 0 := by
  induction h with
  | lit span n => simp [value?, divisors]
  | neg span _ ih => simpa [value?, divisors] using ih
  | @op span o left right _ _ ihl ihr =>
    constructor
    · intro hnone
      cases hl : left.value? with
      | none =>
        obtain ⟨d, hd, hzero⟩ := ihl.1 hl
        exact ⟨d, by simp [divisors, hd], hzero⟩
      | some x =>
        cases hr : right.value? with
        | none =>
          obtain ⟨d, hd, hzero⟩ := ihr.1 hr
          exact ⟨d, by simp [divisors, hd], hzero⟩
        | some y =>
          rw [value?, hl, hr] at hnone
          obtain ⟨rfl, rfl⟩ := IntOp.value?_eq_none.1 hnone
          exact ⟨right, by simp [divisors], hr⟩
    · rintro ⟨d, hd, hzero⟩
      simp only [divisors, List.mem_append] at hd
      rcases hd with (hd | hd) | hd
      · simp [value?, ihl.2 ⟨d, hd, hzero⟩]
      · simp [value?, ihr.2 ⟨d, hd, hzero⟩]
      · by_cases ho : o = .div
        · rw [if_pos ho, List.mem_singleton] at hd
          subst hd
          simp [value?, hzero, IntOp.value?_eq_none, ho]
        · simp [ho] at hd

/-! ## Words -/

namespace Word

theorem int_ofInt (x : Int) : int (BitVec.ofInt 32 x) = pack (BitVec.ofInt 31 x) := by
  rw [int_eq_pack]
  congr 1
  apply BitVec.eq_of_toNat_eq
  simp only [BitVec.toNat_setWidth, BitVec.toNat_ofInt]
  omega

/-- Packing wraps around. -/
theorem int_ofInt_wrap (x : Int) : int (BitVec.ofInt 32 (wrap x)) = pack (BitVec.ofInt 31 x) := by
  rw [int_ofInt]
  congr 1
  apply BitVec.eq_of_toInt_eq
  simp [wrap]

section

variable {x : Int} (hx : -2 ^ 30 ≤ x ∧ x < 2 ^ 30)
include hx

theorem toInt_ofInt_31 : (BitVec.ofInt 31 x).toInt = x := by
  rw [BitVec.toInt_ofInt]
  exact Int.bmod_eq_of_le (by omega) (by omega)

theorem toInt_ofInt_32 : (BitVec.ofInt 32 x).toInt = x := by
  rw [BitVec.toInt_ofInt]
  exact Int.bmod_eq_of_le (by omega) (by omega)

theorem unpack_int_ofInt : (int (BitVec.ofInt 32 x)).unpack = BitVec.ofInt 32 x := by
  apply BitVec.eq_of_toInt_eq
  rw [int_ofInt, unpack_pack, BitVec.toInt_signExtend_of_le (by decide), toInt_ofInt_31 hx, toInt_ofInt_32 hx]

end

/-- Division of integers of 31 bits is that of their bits. -/
theorem ofInt_tdiv {x y : Int} (hx : -2 ^ 30 ≤ x ∧ x < 2 ^ 30) (hy : -2 ^ 30 ≤ y ∧ y < 2 ^ 30) :
    BitVec.ofInt 31 (x.tdiv y) = (BitVec.ofInt 31 x).sdiv (BitVec.ofInt 31 y) := by
  apply BitVec.eq_of_toInt_eq
  rw [BitVec.toInt_sdiv, toInt_ofInt_31 hx, toInt_ofInt_31 hy, BitVec.toInt_ofInt]

end Word

/-! ## Code -/

/-- What is left of a frame by code for an integer: the integer, packed, or a trap if there is none. -/
def Frame.answer (s : Frame) : Option Int → Outcome Frame
  | some x => .next (s.push (.word (Word.int (.ofInt 32 x))))
  | none => .trap .divideByZero

namespace Code

/-- Code that leaves an integer packed, or divides by zero if there is none. -/
def Gives (c : Code) (v : Option Int) : Prop :=
  ∀ (ops : FloatOps) (m : Module) (calls : Calls) (s : Frame), c.exec ops m calls s = s.answer v

/-- Code that takes a packed integer and leaves a word for it. -/
def Converts (c : Code) (f : BitVec 31 → Word) : Prop :=
  ∀ (ops : FloatOps) (m : Module) (calls : Calls) (s : Frame) (a : BitVec 31) (rest : Code),
    Code.exec ops m calls (c ++ rest) (s.push (.word (.pack a))) = rest.exec ops m calls (s.push (.word (f a)))

variable {c l r : Code} {v w : Option Int} {x y : Int}

/-- What follows code that leaves an integer finds it on the stack. -/
theorem Gives.exec_append (h : c.Gives (some x)) (ops : FloatOps) (m : Module) (calls : Calls) (rest : Code)
    (s : Frame) : Code.exec ops m calls (c ++ rest) s =
      rest.exec ops m calls (s.push (.word (.pack (.ofInt 31 x)))) := by
  rw [Code.exec_append, h ops m calls s, ← Word.int_ofInt]
  rfl

/-- Nothing runs after a division by zero. -/
theorem Gives.append_none (h : c.Gives none) (rest : Code) : (c ++ rest).Gives none := by
  intro ops m calls s
  rw [Code.exec_append, h ops m calls s]
  rfl

theorem gives_int (n : Word) : (Emit.int n).Gives (some (wrap n.toInt)) := by
  intro ops m calls s
  have hpack : Word.int n = Word.pack (.ofInt 31 n.toInt) := by rw [← Word.int_ofInt, BitVec.ofInt_toInt]
  rw [Frame.answer, Word.int_ofInt_wrap, ← hpack]
  simp [Emit.int]

theorem Gives.neg (h : c.Gives v) : (Emit.neg c).Gives (v.map fun x => wrap (-x)) := by
  intro ops m calls s
  rw [Emit.neg, List.cons_append, Code.exec_cons, Instr.exec, Outcome.next_bind]
  cases v with
  | none => exact h.append_none _ ops m calls _
  | some x =>
    rw [h.exec_append, Option.map_some, Frame.answer, Word.int_ofInt_wrap, BitVec.ofInt_neg, ← Word.pack_neg]
    simp

/-- The operands of an operation run one after the other, and the first division by zero ends it. -/
theorem Gives.operands {o : IntOp} {convert finish : Code} {f : BitVec 31 → Word} (hl : l.Gives v) (hr : r.Gives w)
    (hconvert : convert.Converts f) (hfinish : ∀ x y, v = some x → w = some y → ∀ ops m calls (s : Frame),
      finish.exec ops m calls ((s.push (.word (f (.ofInt 31 x)))).push (.word (f (.ofInt 31 y)))) =
        s.answer (o.value? x y)) :
    (l ++ convert ++ r ++ convert ++ finish).Gives (v.bind fun x => w.bind fun y => o.value? x y) := by
  intro ops m calls s
  simp only [List.append_assoc]
  cases v with
  | none => exact hl.append_none _ ops m calls s
  | some x =>
    rw [hl.exec_append, hconvert]
    cases w with
    | none => exact hr.append_none _ ops m calls _
    | some y =>
      rw [hr.exec_append, hconvert]
      exact hfinish x y rfl rfl ops m calls s

theorem converts_nil : Converts [] Word.pack := fun _ _ _ _ _ _ => rfl

theorem converts_untag : Converts Emit.untag (·.signExtend 32) := by
  intro ops m calls s a rest
  have hunpack : (Word.pack a).sshiftRight 1 = a.signExtend 32 := Word.unpack_pack a
  simp [Emit.untag, Frame.push, hunpack]

section

variable (ops : FloatOps) (m : Module) (calls : Calls) (s : Frame) (x y : Int)

theorem exec_add : Code.exec ops m calls [.op .i32Add, .i32Const 1, .op .i32Sub]
    ((s.push (.word (.pack (.ofInt 31 x)))).push (.word (.pack (.ofInt 31 y)))) =
      s.answer (IntOp.add.value? x y) := by
  rw [IntOp.value?, Frame.answer, Word.int_ofInt_wrap, BitVec.ofInt_add, ← Word.pack_add]
  simp [Frame.push]

theorem exec_sub : Code.exec ops m calls [.op .i32Sub, .i32Const 1, .op .i32Add]
    ((s.push (.word (.pack (.ofInt 31 x)))).push (.word (.pack (.ofInt 31 y)))) =
      s.answer (IntOp.sub.value? x y) := by
  rw [IntOp.value?, Frame.answer, Word.int_ofInt_wrap, Int.sub_eq_add_neg, BitVec.ofInt_add, BitVec.ofInt_neg,
    ← BitVec.sub_eq_add_neg, ← Word.pack_sub]
  simp [Frame.push]

theorem exec_retag (a : Word) :
    Code.exec ops m calls Emit.retag (s.push (.word a)) = .next (s.push (.word (.int a))) := by
  simp [Emit.retag, Frame.push, Word.int, Word.intFlag]

theorem exec_mul : Code.exec ops m calls ([Instr.op .i32Mul] ++ Emit.retag)
    ((s.push (.word ((BitVec.ofInt 31 x).signExtend 32))).push (.word ((BitVec.ofInt 31 y).signExtend 32))) =
      s.answer (IntOp.mul.value? x y) := by
  rw [IntOp.value?, Frame.answer, Word.int_ofInt_wrap, BitVec.ofInt_mul, ← Word.pack_mul]
  exact exec_retag ops m calls s _

variable {x y}

/-- Operands of 31 bits have a quotient of 32 bits, unless they divide by zero. -/
theorem exec_div (hx : -2 ^ 30 ≤ x ∧ x < 2 ^ 30) (hy : -2 ^ 30 ≤ y ∧ y < 2 ^ 30) :
    Code.exec ops m calls ([Instr.op .i32DivS] ++ Emit.retag)
      ((s.push (.word ((BitVec.ofInt 31 x).signExtend 32))).push (.word ((BitVec.ofInt 31 y).signExtend 32))) =
      s.answer (IntOp.div.value? x y) := by
  by_cases hzero : y = 0
  · subst hzero
    rfl
  · have hdivisor : (BitVec.ofInt 31 y).signExtend 32 ≠ 0#32 := by
      intro h
      have hint := congrArg BitVec.toInt (Word.signExtend_eq_zero.1 h)
      rw [Word.toInt_ofInt_31 hy] at hint
      exact hzero hint
    have hop : Instr.exec ops m calls (.op .i32DivS)
        ((s.push (.word ((BitVec.ofInt 31 x).signExtend 32))).push (.word ((BitVec.ofInt 31 y).signExtend 32))) =
        .next (s.push (.word (((BitVec.ofInt 31 x).signExtend 32).sdiv ((BitVec.ofInt 31 y).signExtend 32)))) := by
      simp [Op.apply, Frame.push, hdivisor, Word.signExtend_ne_intMin]
    rw [List.singleton_append, Code.exec_cons, hop, Outcome.next_bind, exec_retag, Word.pack_div,
      ← Word.ofInt_tdiv hx hy, IntOp.value?, if_neg hzero, Frame.answer, ← Word.int_ofInt_wrap]

end

theorem Gives.intOp (o : IntOp) (hl : l.Gives v) (hr : r.Gives w) (hv : ∀ x, v = some x → -2 ^ 30 ≤ x ∧ x < 2 ^ 30)
    (hw : ∀ y, w = some y → -2 ^ 30 ≤ y ∧ y < 2 ^ 30) :
    (Emit.intOp o l r).Gives (v.bind fun x => w.bind fun y => o.value? x y) := by
  cases o with
  | add =>
    have hadd := hl.operands hr converts_nil fun x y _ _ ops m calls s => exec_add ops m calls s x y
    simpa [Emit.intOp] using hadd
  | sub =>
    have hsub := hl.operands hr converts_nil fun x y _ _ ops m calls s => exec_sub ops m calls s x y
    simpa [Emit.intOp] using hsub
  | mul =>
    have hmul := hl.operands hr converts_untag fun x y _ _ ops m calls s => exec_mul ops m calls s x y
    simpa [Emit.intOp] using hmul
  | div =>
    have hdiv := hl.operands hr converts_untag fun x y hx hy ops m calls s => exec_div ops m calls s (hv x hx) (hw y hy)
    simpa [Emit.intOp] using hdiv

end Code

/-! ## Trees -/

theorem Value.decode?_int {x : Int} (hx : -2 ^ 30 ≤ x ∧ x < 2 ^ 30) (memory : Memory) :
    Value.decode? memory .int (Word.int (.ofInt 32 x)) = some (.ok (.int (.ofInt 32 x))) := by
  have hbit : (Word.int (BitVec.ofInt 32 x)).getLsbD 0 = true := by
    rw [Word.int_ofInt]
    exact Word.getLsbD_pack _
  rw [Value.decode?, Value.decodeWithin, if_pos hbit, Word.unpack_int_ofInt hx]
  rfl

/-- An arithmetic tree is lowered to code that gives its value, and nothing is collected. -/
theorem Node.Arithmetic.gives {cx : Setup} (hcx : cx.routes = .direct) {tree : Node} (h : tree.Arithmetic) :
    ∃ code : Code, (∀ s, tree.lower cx s = .ok code s) ∧ code.Gives tree.value? := by
  induction h with
  | lit span n =>
    refine ⟨Emit.int n, fun s => ?_, Code.gives_int n⟩
    rw [lower, Lower.route_direct hcx, pure_bind]
    rfl
  | neg span _ ih =>
    obtain ⟨c, hc, hgives⟩ := ih
    refine ⟨Emit.neg c, fun s => ?_, hgives.neg⟩
    rw [lower, Lower.route_direct hcx, pure_bind, Lower.bind_apply, hc]
    rfl
  | op span o hleft hright ihl ihr =>
    obtain ⟨l, hl, hlgives⟩ := ihl
    obtain ⟨r, hr, hrgives⟩ := ihr
    refine ⟨Emit.intOp o l r, fun s => ?_, hlgives.intOp o hrgives (fun _ => hleft.range) fun _ => hright.range⟩
    rw [lower, Lower.route_direct hcx, pure_bind, Lower.bind_apply, hl]
    simp only [Lower.bind_apply, hr]
    rfl

/-- **Integer expressions compute in 31 bits.** Every arithmetic tree is lowered, and its code traps
if and only if some divisor in it is zero, never since a quotient overflows. Otherwise it leaves the
packed value of the tree, which is read back as that integer. -/
theorem lower_arithmetic_wraps (settings : Settings) (types : TypeMap) (tree : Node) (h : tree.Arithmetic)
    (s : State) :
    ∃ code, tree.lower ⟨settings, types, .direct⟩ s = .ok code s ∧
      ∀ (ops : FloatOps) (m : Module) (calls : Calls) (frame : Frame),
        ((∃ trap, code.exec ops m calls frame = .trap trap) ↔ ∃ d ∈ tree.divisors, d.value? = some 0) ∧
        (∀ trap, code.exec ops m calls frame = .trap trap → trap = .divideByZero) ∧
        ((∀ d ∈ tree.divisors, d.value? ≠ some 0) → ∃ x, tree.value? = some x ∧ -2 ^ 30 ≤ x ∧ x < 2 ^ 30 ∧
          code.exec ops m calls frame = .next (frame.push (.word (Word.int (.ofInt 32 x)))) ∧
          ∀ memory, Value.decode? memory .int (Word.int (.ofInt 32 x)) = some (.ok (.int (.ofInt 32 x))) ∧
            (BitVec.ofInt 32 x).toInt = x) := by
  have hdirect : (⟨settings, types, .direct⟩ : Setup).routes = .direct := rfl
  obtain ⟨code, hlower, hgives⟩ := h.gives hdirect
  refine ⟨code, hlower s, fun ops m calls frame => ?_⟩
  rw [hgives ops m calls frame]
  cases hvalue : tree.value? with
  | none =>
    obtain ⟨d, hd, hzero⟩ := h.value?_eq_none.1 hvalue
    refine ⟨⟨fun _ => ⟨d, hd, hzero⟩, fun _ => ⟨_, rfl⟩⟩, ?_, fun hnone => absurd hzero (hnone d hd)⟩
    intro trap htrap
    cases htrap
    rfl
  | some x =>
    have hx := h.range hvalue
    have hnone : ¬ ∃ d ∈ tree.divisors, d.value? = some 0 := by
      rw [← h.value?_eq_none, hvalue]
      simp
    refine ⟨⟨?_, fun hzero => absurd hzero hnone⟩, ?_, fun _ => ⟨x, rfl, hx.1, hx.2, rfl, fun memory => ?_⟩⟩
    · rintro ⟨trap, htrap⟩
      cases htrap
    · intro trap htrap
      cases htrap
    · exact ⟨Value.decode?_int hx memory, Word.toInt_ofInt_32 hx⟩

/-- `1073741824 / -1`: the dividend wraps around to the least integer of 31 bits, and so does the
quotient. -/
def Node.leastQuotient : Node :=
  let span : Span := .point ⟨"1073741824 / -1", Source.defaultPath⟩ 0
  .binary span (.int .div) (.lit span (.int 1073741824)) (.unary span .neg (.lit span (.int 1)))

theorem lower_arithmetic_wraps_leastQuotient : Node.leastQuotient.Arithmetic ∧
    ∃ code, Node.leastQuotient.lower ⟨.default, .empty, .direct⟩ .initial = .ok code .initial ∧
      ∀ (ops : FloatOps) (m : Module) (calls : Calls) (frame : Frame),
        code.exec ops m calls frame = .next (frame.push (.word (Word.int (.ofInt 32 (-1073741824))))) := by
  have harith : Node.leastQuotient.Arithmetic := .op _ _ (.lit _ _) (.neg _ (.lit _ _))
  obtain ⟨code, hlower, hrun⟩ := lower_arithmetic_wraps .default .empty .leastQuotient harith .initial
  refine ⟨harith, code, hlower, fun ops m calls frame => ?_⟩
  obtain ⟨-, -, hvalue⟩ := hrun ops m calls frame
  obtain ⟨x, hx, -, -, hexec, -⟩ := hvalue (by simp [Node.leastQuotient, Node.divisors, Node.value?, wrap])
  have hleast : Node.leastQuotient.value? = some (-1073741824) := by decide
  rw [hleast, Option.some.injEq] at hx
  rw [hexec, ← hx]

end WasmBackend
