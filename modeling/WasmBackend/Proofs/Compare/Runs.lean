/-
What the functions of the comparator do. On words that stand for two values
of one kind, the function of a comparison answers whether it holds of them,
and changes nothing (`compare_represented`). The proof follows the words that
stand for the left value: an unboxed word is compared as a number, a boxed
one as its tag says, and two cells first by their heads and then by their
tails.
-/
import WasmBackend.Proofs.Data.Layout
import WasmBackend.Proofs.Heap.Calls

namespace WasmBackend

open Library

/-- How two words stand to each other as numbers with a sign. -/
def Word.verdict (a b : Word) : Verdict := .ofOrdering (compare a.toInt b.toInt)

/-- Comparisons that tell closures apart. -/
def Comparison.byIdentity (c : Comparison) : Bool := c = .eq || c = .ne

namespace Module

/-- The comparator's functions, and those they call, are found by their names. -/
structure Compares (m : Module) (r : CompareRequest) : Prop where
  any : ∀ c ∈ Compare.closure r, m.func? (Compare.function c) = some (Compare.anyFunc r c)
  lists : r.lists = true → ∀ c ∈ Compare.closure r, c ≠ .ne →
    m.func? (Compare.listFunction c) = some (Compare.listFunc c)
  list : r.lists = true → m.Supports .list
  float : r.floats = true → m.Supports .float

end Module

section

variable {ops : FloatOps} {a b : Word}

theorem Word.verdict_of_lt (h : a.toInt < b.toInt) : a.verdict b = .less := by
  rw [Word.verdict, Int.compare_eq_lt.2 h]
  rfl

theorem Word.verdict_of_gt (h : b.toInt < a.toInt) : a.verdict b = .greater := by
  rw [Word.verdict, Int.compare_eq_gt.2 h]
  rfl

theorem Word.verdict_self : a.verdict a = .equal := by
  rw [Word.verdict, Int.compare_eq_eq.2 rfl]
  rfl

/-- The instruction of a comparison answers whether it holds of the two numbers. -/
theorem Op.apply_wordOp (c : Comparison) (s : List Operand) :
    Op.apply ops c.wordOp (.word b :: .word a :: s) =
      .next (.ofBool (c.accepts (a.verdict b)) :: s) := by
  rcases Int.lt_trichotomy a.toInt b.toInt with h | h | h
  · have hne : a ≠ b := by
      rintro rfl
      omega
    rw [Word.verdict_of_lt h]
    cases c <;> simp [Comparison.wordOp, Op.apply, Comparison.accepts, BitVec.slt, BitVec.sle, hne, h,
      Int.le_of_lt h, Int.not_le.2 h, Int.not_lt.2 (Int.le_of_lt h)]
  · obtain rfl := BitVec.eq_of_toInt_eq h
    rw [Word.verdict_self]
    cases c <;> simp [Comparison.wordOp, Op.apply, Comparison.accepts, BitVec.slt, BitVec.sle]
  · have hne : a ≠ b := by
      rintro rfl
      omega
    rw [Word.verdict_of_gt h]
    cases c <;> simp [Comparison.wordOp, Op.apply, Comparison.accepts, BitVec.slt, BitVec.sle, hne, h,
      Int.le_of_lt h, Int.not_le.2 h, Int.not_lt.2 (Int.le_of_lt h)]

theorem Op.apply_floatOp (c : Comparison) (x y : Double) (s : List Operand) :
    Op.apply ops c.floatOp (.double y :: .double x :: s) =
      .next (.ofBool (c.accepts (ops.verdict x y)) :: s) := by
  cases c <;> rfl

theorem Word.verdict_pack (m n : BitVec 31) :
    (Word.pack m).verdict (.pack n) = .ofOrdering (compare m.toInt n.toInt) := by
  have hm := Word.toInt_pack m
  have hn := Word.toInt_pack n
  rcases Int.lt_trichotomy m.toInt n.toInt with h | h | h
  · rw [Word.verdict_of_lt (by omega), Int.compare_eq_lt.2 h]
    rfl
  · rw [Word.verdict, hm, hn, h, Int.compare_eq_eq.2 rfl, Int.compare_eq_eq.2 rfl]
  · rw [Word.verdict_of_gt (by omega), Int.compare_eq_gt.2 h]
    rfl

theorem Word.verdict_bool (b c : Bool) : (Word.bool b).verdict (.bool c) = .ofOrdering (compare b c) := by
  cases b <;> cases c <;> decide

theorem Comparison.mem_closure {r : CompareRequest} {c : Comparison} :
    c ∈ Compare.closure r ↔ Compare.needs r c = true := by
  have hall : c ∈ Comparison.all := by cases c <;> decide
  simp [Compare.closure, hall]

/-- Lists are compared by the equality of their heads, -/
theorem Comparison.eq_mem_closure {r : CompareRequest} {c : Comparison} (hl : r.lists = true)
    (h : c ∈ Compare.closure r) : .eq ∈ Compare.closure r := by
  have hne : r.ops ≠ [] := by
    intro hnil
    rw [Comparison.mem_closure] at h
    cases c <;> simp [Compare.needs, hnil] at h
  rw [Comparison.mem_closure]
  simp [Compare.needs, hl, hne]

/-- and by their strict order. -/
theorem Comparison.strict_mem_closure {r : CompareRequest} {c : Comparison} (hl : r.lists = true)
    (h : c ∈ Compare.closure r) : c.strict ∈ Compare.closure r := by
  cases c <;> simp_all [Comparison.mem_closure, Compare.needs, Comparison.strict]

theorem Comparison.eq_mem_closure_of_ne {r : CompareRequest} (h : .ne ∈ Compare.closure r) :
    .eq ∈ Compare.closure r := by
  simp_all [Comparison.mem_closure, Compare.needs]

end

/-! ## Single functions -/

/-- The function compares two words, with this answer, and changes nothing. -/
def Module.Decides (ops : FloatOps) (m : Module) (σ : Store) (f : String) (wd we : Word) (b : Bool) : Prop :=
  ∀ below, m.Answers ops f (.word we :: .word wd :: below) σ (.next (.ofBool b :: below, σ))

/-- The locals of a function that compares two words. -/
def Compare.locals (wd we : Word) (x : String) : Option Operand :=
  [("left", Operand.word wd), ("right", Operand.word we)].lookup x

section

variable {ops : FloatOps} {m : Module} {σ : Store} {r : CompareRequest} {c : Comparison} {wd we : Word}
  {b : Bool}

@[simp] theorem Compare.locals_left : Compare.locals wd we "left" = some (.word wd) := rfl
@[simp] theorem Compare.locals_right : Compare.locals wd we "right" = some (.word we) := rfl

theorem Module.Decides.of_body {f : String} {body : Code} (hf : m.func? f = some (Compare.binary f body))
    (hb : body.Settles ops m ⟨[], Compare.locals wd we, σ⟩ (.next ⟨[.ofBool b], Compare.locals wd we, σ⟩)) :
    m.Decides ops σ f wd we b := by
  intro below
  have he : (Compare.binary f body).enter (.word we :: .word wd :: below) =
      some (Compare.locals wd we, below) := by
    simp [Compare.binary, Func.words, Local.word]
    rfl
  exact Module.Answers.of_body hf he hb

/-- Inequality is negated equality. -/
theorem Module.Decides.ne (hf : m.func? (Compare.function .ne) = some (Compare.anyFunc r .ne))
    (h : m.Decides ops σ (Compare.function .eq) wd we b) :
    m.Decides ops σ (Compare.function .ne) wd we (!b) := by
  refine .of_body hf ?_
  obtain ⟨d, hd⟩ := h []
  refine ⟨d, fun n hn => ?_⟩
  cases b <;> simp [Compare.operands, hd n hn, Operand.ofBool]

theorem Compare.exec_words (calls : Calls) (c : Comparison) :
    Code.exec ops m calls (Compare.operands ++ [Instr.op c.wordOp]) ⟨[], Compare.locals wd we, σ⟩ =
      .next ⟨[.ofBool (c.accepts (wd.verdict we))], Compare.locals wd we, σ⟩ := by
  have hret : c.wordOp ≠ .ret := by cases c <;> decide
  simp [Compare.operands, -Frame.op, Frame.op_eq hret, Op.apply_wordOp]

/-- An unboxed left word is compared as a number. -/
theorem Module.Decides.unboxed (hf : m.func? (Compare.function c) = some (Compare.anyFunc r c))
    (hc : c ≠ .ne) (hw : wd &&& Word.intFlag ≠ 0#32 ∨ wd = 0#32) :
    m.Decides ops σ (Compare.function c) wd we (c.accepts (wd.verdict we)) := by
  rw [Compare.anyFunc, if_neg hc] at hf
  refine .of_body hf (.of_eq 0 fun n => ?_)
  rcases hw with hw | rfl
  · simp [Instr.condWord, hw, Compare.exec_words]
  · simp [Instr.condWord, Compare.exec_words]

/-- A boxed left word is compared as the branch of its tag does it. -/
theorem Compare.dispatch_settles {t : Tag} {code : Code} (hw : wd &&& Tag.mask = t.bits)
    (hcode : code.Settles ops m ⟨[], Compare.locals wd we, σ⟩
      (.next ⟨[.ofBool b], Compare.locals wd we, σ⟩)) :
    ∀ {branches : List (Tag × Code)}, branches.lookup t = some code →
      Code.Settles ops m (Compare.dispatch branches) ⟨[], Compare.locals wd we, σ⟩
        (.next ⟨[.ofBool b], Compare.locals wd we, σ⟩)
  | [], h => by cases h
  | (u, other) :: rest, h => by
    by_cases hu : t = u
    · subst hu
      simp only [List.lookup_cons, BEq.rfl, Option.some.injEq] at h
      subst h
      obtain ⟨d, hd⟩ := hcode
      refine ⟨d, fun n hn => ?_⟩
      have hd' := hd n hn
      simp only [Operand.ofBool] at hd'
      simp [Compare.dispatch, Compare.hasTag, Instr.condWord, Operand.ofBool, hw, hd']
    · have hbits : t.bits ≠ u.bits := by cases t <;> cases u <;> first | decide | exact absurd rfl hu
      have hrest : rest.lookup t = some code := by
        simpa [List.lookup_cons, beq_false_of_ne hu] using h
      obtain ⟨d, hd⟩ := dispatch_settles hw hcode hrest
      refine ⟨d, fun n hn => ?_⟩
      simp [Compare.dispatch, Compare.hasTag, Instr.condWord, Operand.ofBool, hw, hbits, hd n hn]

theorem Module.Decides.boxed {a : Nat} {t : Tag} {code : Code} (ha : a < 2 ^ 27)
    (hf : m.func? (Compare.function c) = some (Compare.anyFunc r c)) (hc : c ≠ .ne)
    (hlook : (Compare.branches r c).lookup t = some code)
    (hcode : code.Settles ops m ⟨[], Compare.locals (.boxed (.ofNat 32 a) t) we, σ⟩
      (.next ⟨[.ofBool b], Compare.locals (.boxed (.ofNat 32 a) t) we, σ⟩)) :
    m.Decides ops σ (Compare.function c) (.boxed (.ofNat 32 a) t) we b := by
  rw [Compare.anyFunc, if_neg hc] at hf
  refine .of_body hf ?_
  obtain ⟨d, hd⟩ := Compare.dispatch_settles (Word.boxed_and_mask _ t) hcode hlook
  refine ⟨d, fun n hn => ?_⟩
  simp [Instr.condWord, Word.boxed_and_intFlag, Word.boxed_ne_zero (Nat.lt_trans ha (by decide)), hd n hn]

theorem Compare.branches_float (hr : r.floats = true) : (Compare.branches r c).lookup .float =
    some [.localGet "left", .call Floats.get, .localGet "right", .call Floats.get, .op c.floatOp] := by
  simp only [Compare.branches, hr, if_true]
  rfl

theorem Compare.branches_list (hr : r.lists = true) : (Compare.branches r c).lookup .list =
    some (Compare.operands ++ [Instr.call (Compare.listFunction c)]) := by
  cases hf : r.floats <;> simp only [Compare.branches, hr, hf, if_true] <;> rfl

theorem Compare.branches_closure :
    (Compare.branches r .eq).lookup .closure = some (Compare.operands ++ [Instr.op .i32Eq]) := by
  cases hf : r.floats <;> cases hl : r.lists <;>
    simp only [Compare.branches, hf, hl, if_true] <;> rfl

/-! ## Lists -/

/-- Two lists of which one has no cells. -/
theorem Module.Decides.list_nil (hf : m.func? (Compare.listFunction c) = some (Compare.listFunc c))
    (hw : wd = 0#32 ∨ we = 0#32)
    (hb : b = if wd ≠ 0#32 then Compare.onlyLeft c else if we ≠ 0#32 then Compare.onlyRight c
      else Compare.neither c) :
    m.Decides ops σ (Compare.listFunction c) wd we b := by
  refine .of_body hf (.of_eq 0 fun n => ?_)
  subst hb
  by_cases hd : wd = 0#32 <;> by_cases he : we = 0#32 <;>
    simp_all [Instr.condWord, Compare.answer, Operand.ofBool]

/-- The same part of both operands, handed on to a function that compares. -/
theorem Compare.both_settles {part f : String} {x y : Word}
    (hx : ∀ below, m.Answers ops part (.word wd :: below) σ (.next (.word x :: below, σ)))
    (hy : ∀ below, m.Answers ops part (.word we :: below) σ (.next (.word y :: below, σ)))
    (hf : m.Decides ops σ f x y b) :
    Code.Settles ops m (Compare.both part ++ [Instr.call f]) ⟨[], Compare.locals wd we, σ⟩
      (.next ⟨[.ofBool b], Compare.locals wd we, σ⟩) := by
  obtain ⟨i, hi⟩ := hx []
  obtain ⟨j, hj⟩ := hy [.word x]
  obtain ⟨k, hk⟩ := hf []
  refine ⟨i + (j + k), fun n hn => ?_⟩
  simp [Compare.both, hi n (by omega), hj n (by omega), hk n (by omega)]

/-- A test that leaves an answer, and the branch it leads to. -/
theorem Code.Settles.branch {test yes no : Code} {i : Instr String} {s : Frame} {p : Bool}
    (htest : Code.Settles ops m (test ++ [i]) s (.next { s with stack := [.ofBool p] }))
    (hbranch : Code.Settles ops m (if p then yes else no) { s with stack := [] }
      (.next { s with stack := [.ofBool b] })) :
    Code.Settles ops m (test ++ [i, Instr.condWord yes no]) s (.next { s with stack := [.ofBool b] }) := by
  have hcode : test ++ [i, Instr.condWord yes no] = (test ++ [i]) ++ [Instr.condWord yes no] := by simp
  rw [hcode]
  refine htest.append ?_
  obtain ⟨d, hd⟩ := hbranch
  refine ⟨d, fun n hn => ?_⟩
  have hd := hd n hn
  cases p <;> simp_all [Instr.condWord, Operand.ofBool]

/-- Two lists with cells, whose heads and tails are compared with these answers. -/
theorem Module.Decides.list_cons {hd he td te : Word} {strict equal rest : Bool}
    (hf : m.func? (Compare.listFunction c) = some (Compare.listFunc c)) (hlist : m.Supports .list)
    (hwd : wd ≠ 0#32) (hwe : we ≠ 0#32)
    (hhd : σ.memory.loadWord (wd.address + 4) = .ok hd) (hhe : σ.memory.loadWord (we.address + 4) = .ok he)
    (htd : σ.memory.loadWord wd.address = .ok td) (hte : σ.memory.loadWord we.address = .ok te)
    (hstrict : c ≠ .eq → m.Decides ops σ (Compare.function c.strict) hd he strict)
    (hequal : m.Decides ops σ (Compare.function .eq) hd he equal)
    (hrest : equal = true → m.Decides ops σ (Compare.listFunction c) td te rest) :
    m.Decides ops σ (Compare.listFunction c) wd we
      (if c = .eq then equal && rest else strict || (equal && rest)) := by
  have heads {f : String} {p : Bool} (h : m.Decides ops σ f hd he p) :=
    Compare.both_settles (fun below => .of_eq 2 fun n => invoke_listHead hlist hhd)
      (fun below => .of_eq 2 fun n => invoke_listHead hlist hhe) h
  have tails (h : equal = true) :=
    Compare.both_settles (fun below => .of_eq 2 fun n => invoke_listTail hlist htd)
      (fun below => .of_eq 2 fun n => invoke_listTail hlist hte) (hrest h)
  have answers (p : Bool) : Code.Settles ops m (Compare.answer p) ⟨[], Compare.locals wd we, σ⟩
      (.next ⟨[.ofBool p], Compare.locals wd we, σ⟩) :=
    .of_eq 0 fun n => by simp [Compare.answer, Operand.ofBool]
  have hcells : Code.Settles ops m (Compare.cells c) ⟨[], Compare.locals wd we, σ⟩
      (.next ⟨[.ofBool (if c = .eq then equal && rest else strict || (equal && rest))],
        Compare.locals wd we, σ⟩) := by
    have hequals : Code.Settles ops m (Compare.both Lists.head ++ [Instr.call (Compare.function .eq),
        .condWord (Compare.both Lists.tail ++ [Instr.call (Compare.listFunction c)]) (Compare.answer false)])
        ⟨[], Compare.locals wd we, σ⟩ (.next ⟨[.ofBool (equal && rest)], Compare.locals wd we, σ⟩) := by
      refine (heads hequal).branch ?_
      cases equal
      · exact answers false
      · exact tails rfl
    unfold Compare.cells
    by_cases hc : c = .eq
    · simpa only [hc, if_true] using hequals
    · simp only [hc, if_false]
      refine (heads (hstrict hc)).branch ?_
      cases strict
      · exact hequals
      · exact answers true
  refine .of_body hf ?_
  obtain ⟨d, hd⟩ := hcells
  refine ⟨d, fun n hn => ?_⟩
  simp [Instr.condWord, hwd, hwe, hd n hn]

end

/-! ## Verdicts -/

mutual

/-- Telling closures apart only adds verdicts. -/
theorem Datum.verdict?_true {ops : FloatOps} : ∀ {d e : Datum} {v : Verdict},
    d.verdict? ops false e = some v → d.verdict? ops true e = some v
  | .int _, e, v, h | .bool _, e, v, h | .float _, e, v, h | .closure _, e, v, h => by
    cases e <;> simp_all [Datum.verdict?]
  | .list xs, e, v, h => by
    cases e with
    | list ys =>
      simp only [Datum.verdict?] at h ⊢
      exact Datum.verdictAll?_true h
    | _ => simp [Datum.verdict?] at h

theorem Datum.verdictAll?_true {ops : FloatOps} : ∀ {xs ys : List Datum} {v : Verdict},
    Datum.verdictAll? ops false xs ys = some v → Datum.verdictAll? ops true xs ys = some v
  | [], ys, v, h => by cases ys <;> simp_all [Datum.verdictAll?]
  | x :: xs, [], v, h => by simp_all [Datum.verdictAll?]
  | x :: xs, y :: ys, v, h => by
    simp only [Datum.verdictAll?] at h ⊢
    split at h
    · rename_i hxy
      rw [Datum.verdict?_true hxy]
      exact Datum.verdictAll?_true h
    · rename_i hne
      rw [Datum.verdict?_true h]
      cases v <;> simp_all

end

theorem Datum.verdict?_byIdentity {ops : FloatOps} {c : Comparison} {d e : Datum} {v : Verdict}
    (h : d.verdict? ops c.byIdentity e = some v) : d.verdict? ops true e = some v := by
  cases hc : c.byIdentity
  · exact Datum.verdict?_true (hc ▸ h)
  · exact hc ▸ h

/-! ## Represented values -/

section

variable {ops : FloatOps} {m : Module} {σ : Store} {r : CompareRequest} {L : Layout} {c : Comparison}
  {wd we : Word} {d e : Datum} {v : Verdict}

/-- An unboxed word and the word it is compared with, as the values they stand for. -/
theorem Word.verdict_represented (hd : L.Represents wd d) (he : L.Represents we e)
    (hw : wd &&& Word.intFlag ≠ 0#32 ∨ wd = 0#32) (hv : d.verdict? ops c.byIdentity e = some v) :
    wd.verdict we = v := by
  cases hd with
  | int n =>
    cases he <;> simp_all [Datum.verdict?, Word.verdict_pack]
  | bool b =>
    cases he <;> simp_all [Datum.verdict?, Word.verdict_bool]
  | nil =>
    cases he with
    | nil => simp_all [Datum.verdict?, Datum.verdictAll?, Word.verdict_self]
    | cons hl ha _ _ =>
      have hpos := Word.toInt_boxed (t := .list) ha.lt
      have hbits := Word.bits_pos .list
      have hzero : Word.emptyList.toInt = 0 := rfl
      rw [Word.verdict_of_lt (by omega)]
      simpa [Datum.verdict?, Datum.verdictAll?] using hv
    | _ => simp [Datum.verdict?] at hv
  | float hf ha =>
    simp [Word.boxed_and_intFlag, Word.boxed_ne_zero (Nat.lt_trans ha.lt (by decide))] at hw
  | cons hl ha _ _ =>
    simp [Word.boxed_and_intFlag, Word.boxed_ne_zero (Nat.lt_trans ha.lt (by decide))] at hw
  | closure hp =>
    simp [Word.boxed_and_intFlag,
      Word.boxed_ne_zero (Nat.lt_trans (Layout.place_lt_pow hp) (by decide))] at hw

theorem decides_float {x : Double} {a : Nat} (hm : m.Compares r) (hr : r.floats = true)
    (hσ : σ.memory = L.memory) (hc : c ∈ Compare.closure r) (hne : c ≠ .ne) (ha : L.DoubleAt a x)
    (he : L.Represents we e) (hv : (Datum.float x).verdict? ops c.byIdentity e = some v) :
    m.Decides ops σ (Compare.function c) (.boxed (.ofNat 32 a) .float) we (c.accepts v) := by
  cases he with
  | @float b y hf hb =>
    obtain rfl : ops.verdict x y = v := by simpa [Datum.verdict?] using hv
    have hret : c.floatOp ≠ .ret := by cases c <;> decide
    have hx : σ.memory.loadDouble (Word.boxed (.ofNat 32 a) .float).address = .ok x := by
      rw [Word.address_boxed (Nat.lt_trans ha.lt (by decide)), hσ]
      exact ha.value
    have hy : σ.memory.loadDouble (Word.boxed (.ofNat 32 b) .float).address = .ok y := by
      rw [Word.address_boxed (Nat.lt_trans hb.lt (by decide)), hσ]
      exact hb.value
    refine .boxed ha.lt (hm.any c hc) hne (Compare.branches_float hr) (.of_eq 1 fun n => ?_)
    simp [-Frame.op, Frame.op_eq hret, Op.apply_floatOp, invoke_floatGet (hm.float hr) hx,
      invoke_floatGet (hm.float hr) hy]
  | _ => simp [Datum.verdict?] at hv

/-- Closures are at the same place only if they are the same. -/
theorem decides_closure {a i : Nat} (hm : m.Compares r) (hc : c ∈ Compare.closure r) (hne : c ≠ .ne)
    (ha : L.places[i]? = some a) (he : L.Represents we e)
    (hv : (Datum.closure i).verdict? ops c.byIdentity e = some v) :
    m.Decides ops σ (Compare.function c) (.boxed (.ofNat 32 a) .closure) we (c.accepts v) := by
  cases he with
  | @closure b j hb =>
    obtain rfl : c = .eq := by
      cases c <;> first | rfl | exact absurd rfl hne | simp [Datum.verdict?, Comparison.byIdentity] at hv
    have hlt := Layout.place_lt_pow ha
    have hij : Word.boxed (.ofNat 32 a) .closure = .boxed (.ofNat 32 b) .closure ↔ i = j := by
      rw [Word.boxed_inj (Nat.lt_trans hlt (by decide)) (Nat.lt_trans (Layout.place_lt_pow hb) (by decide))]
      constructor
      · rintro rfl
        exact (List.getElem?_inj (List.getElem?_eq_some_iff.1 ha).1 L.places_nodup).1 (ha.trans hb.symm)
      · rintro rfl
        simpa [ha] using hb
    have hanswer : Comparison.eq.accepts v =
        decide (Word.boxed (.ofNat 32 a) .closure = .boxed (.ofNat 32 b) .closure) := by
      have hv : (if i = j then Verdict.equal else .unordered) = v := by
        simpa [Datum.verdict?, Comparison.byIdentity] using hv
      subst hv
      by_cases h : i = j <;> simp [Comparison.accepts, hij, h]
    refine .boxed hlt (hm.any _ hc) hne Compare.branches_closure (.of_eq 0 fun n => ?_)
    rw [hanswer]
    simp [Compare.operands]
  | _ => simp [Datum.verdict?] at hv

/-- Which answers a list without cells gets. -/
theorem Compare.accepts_nil (hne : c ≠ .ne) : c.accepts .equal = Compare.neither c ∧
    c.accepts .less = Compare.onlyRight c ∧ c.accepts .greater = Compare.onlyLeft c := by
  cases c <;> first | exact absurd rfl hne | decide

/-- What the heads of two cells decide on their own. -/
theorem Compare.accepts_heads (hne : c ≠ .ne) (hv : v ≠ .equal) :
    (if c = .eq then false else c.strict.accepts v) = c.accepts v := by
  cases c <;> cases v <;> first | exact absurd rfl hne | exact absurd rfl hv | decide

theorem decides_unboxed (hm : m.Compares r) (hc : c ∈ Compare.closure r) (hne : c ≠ .ne)
    (hd : L.Represents wd d) (he : L.Represents we e) (hw : wd &&& Word.intFlag ≠ 0#32 ∨ wd = 0#32)
    (hv : d.verdict? ops c.byIdentity e = some v) :
    m.Decides ops σ (Compare.function c) wd we (c.accepts v) := by
  rw [← Word.verdict_represented hd he hw hv]
  exact .unboxed (hm.any c hc) hne hw

/-- A cell is compared by the function for lists. -/
theorem decides_cell {a : Nat} {tail head : Word} {b : Bool} (hm : m.Compares r) (hr : r.lists = true)
    (hc : c ∈ Compare.closure r) (hne : c ≠ .ne) (ha : L.PairAt a tail head)
    (h : m.Decides ops σ (Compare.listFunction c) (.boxed (.ofNat 32 a) .list) we b) :
    m.Decides ops σ (Compare.function c) (.boxed (.ofNat 32 a) .list) we b := by
  refine .boxed ha.lt (hm.any c hc) hne (Compare.branches_list hr) ?_
  obtain ⟨k, hk⟩ := h []
  refine ⟨k, fun n hn => ?_⟩
  simp [Compare.operands, hk n hn]

/-- The halves of a cell, read through its boxed word. -/
theorem Layout.PairAt.unbox {a : Nat} {x y : Word} {t : Tag} (h : L.PairAt a x y) (hσ : σ.memory = L.memory) :
    σ.memory.loadWord (Word.boxed (.ofNat 32 a) t).address = .ok x ∧
      σ.memory.loadWord ((Word.boxed (.ofNat 32 a) t).address + 4) = .ok y := by
  rw [Word.address_boxed (Nat.lt_trans h.lt (by decide)), hσ]
  exact ⟨h.first, h.second⟩

theorem Layout.PairAt.boxed_ne_zero {a : Nat} {x y : Word} (h : L.PairAt a x y) (t : Tag) :
    Word.boxed (.ofNat 32 a) t ≠ 0#32 :=
  Word.boxed_ne_zero (Nat.lt_trans h.lt (by decide))

/-- Two cells, given how their heads and their tails are compared. -/
theorem decides_cells {a b : Nat} {tail head tail' head' : Word} {ds es : List Datum} (hm : m.Compares r)
    (hr : r.lists = true) (hσ : σ.memory = L.memory) (hc : c ∈ Compare.closure r) (hne : c ≠ .ne)
    (ha : L.PairAt a tail head) (hb : L.PairAt b tail' head')
    (hheads : ∀ {c' v'}, c' ∈ Compare.closure r → c' ≠ .ne → d.verdict? ops c'.byIdentity e = some v' →
      m.Decides ops σ (Compare.function c') head head' (c'.accepts v'))
    (htails : ∀ {v'}, (Datum.list ds).verdict? ops c.byIdentity (.list es) = some v' →
      m.Decides ops σ (Compare.listFunction c) tail tail' (c.accepts v'))
    (hv : (Datum.list (d :: ds)).verdict? ops c.byIdentity (.list (e :: es)) = some v) :
    m.Decides ops σ (Compare.listFunction c) (.boxed (.ofNat 32 a) .list) (.boxed (.ofNat 32 b) .list)
      (c.accepts v) := by
  simp only [Datum.verdict?, Datum.verdictAll?] at hv
  cases hhead : d.verdict? ops c.byIdentity e with
  | none => simp [hhead] at hv
  | some u =>
    have hstrict : c ≠ .eq → m.Decides ops σ (Compare.function c.strict) head head' (c.strict.accepts u) :=
      fun _ => hheads (Comparison.strict_mem_closure hr hc) (by cases c <;> simp_all [Comparison.strict])
        (by cases c <;> simp_all [Comparison.strict, Comparison.byIdentity])
    have hequal := hheads (Comparison.eq_mem_closure hr hc) (by decide) (Datum.verdict?_byIdentity hhead)
    have hlist := hm.lists hr c hc hne
    have hwa := ha.unbox (t := .list) hσ
    have hwb := hb.unbox (t := .list) hσ
    by_cases hu : u = .equal
    · subst hu
      simp only [hhead] at hv
      have h := Module.Decides.list_cons hlist (hm.list hr) (ha.boxed_ne_zero .list) (hb.boxed_ne_zero .list)
        hwa.2 hwb.2 hwa.1 hwb.1 hstrict hequal fun _ => htails hv
      cases c <;> simpa [Comparison.strict, Comparison.accepts] using h
    · obtain rfl : u = v := by cases u <;> simp_all
      have hrest : Comparison.eq.accepts u = true → m.Decides ops σ (Compare.listFunction c) tail tail' false :=
        fun heq => absurd heq (by simp [Comparison.accepts, hu])
      have h := Module.Decides.list_cons hlist (hm.list hr) (ha.boxed_ne_zero .list) (hb.boxed_ne_zero .list)
        hwa.2 hwb.2 hwa.1 hwb.1 hstrict hequal hrest
      rw [← Compare.accepts_heads hne hu]
      simpa using h

/-- The function of a comparison and, on lists, that of their cells both say whether it holds. -/
theorem decides_represented (hm : m.Compares r) (hfloat : L.floats = true → r.floats = true)
    (hlist : L.lists = true → r.lists = true) (hσ : σ.memory = L.memory) (hd : L.Represents wd d) :
    ∀ {c : Comparison} {e : Datum} {we : Word} {v : Verdict}, c ∈ Compare.closure r → c ≠ .ne →
      L.Represents we e → d.verdict? ops c.byIdentity e = some v →
      m.Decides ops σ (Compare.function c) wd we (c.accepts v) ∧
      ∀ ds, d = .list ds → r.lists = true → m.Decides ops σ (Compare.listFunction c) wd we (c.accepts v) := by
  induction hd with
  | int n =>
    intro c e we v hc hne he hv
    have hw : Word.pack n &&& Word.intFlag ≠ 0#32 := by simp [Word.pack_and_intFlag]
    exact ⟨decides_unboxed hm hc hne (.int n) he (.inl hw) hv, fun _ h => by cases h⟩
  | bool b =>
    intro c e we v hc hne he hv
    have hw : Word.bool b &&& Word.intFlag ≠ 0#32 ∨ Word.bool b = 0#32 := by cases b <;> decide
    exact ⟨decides_unboxed hm hc hne (.bool b) he hw hv, fun _ h => by cases h⟩
  | float hf ha =>
    intro c e we v hc hne he hv
    exact ⟨decides_float hm (hfloat hf) hσ hc hne ha he hv, fun _ h => by cases h⟩
  | nil =>
    intro c e we v hc hne he hv
    refine ⟨decides_unboxed hm hc hne .nil he (.inr rfl) hv, fun ds _ hr => ?_⟩
    obtain ⟨hneither, hright, -⟩ := Compare.accepts_nil hne
    refine .list_nil (hm.lists hr c hc hne) (.inl rfl) ?_
    cases he with
    | nil =>
      obtain rfl : Verdict.equal = v := by simpa [Datum.verdict?, Datum.verdictAll?] using hv
      simp [Word.emptyList, hneither]
    | cons hl ha _ _ =>
      obtain rfl : Verdict.less = v := by simpa [Datum.verdict?, Datum.verdictAll?] using hv
      simp [Word.emptyList, hright, ha.boxed_ne_zero]
    | _ => simp [Datum.verdict?] at hv
  | @cons a tail head d ds hl ha hhead htail ihhead ihtail =>
    intro c e we v hc hne he hv
    have hr := hlist hl
    suffices hcells : m.Decides ops σ (Compare.listFunction c) (.boxed (.ofNat 32 a) .list) we (c.accepts v) from
      ⟨decides_cell hm hr hc hne ha hcells, fun _ _ _ => hcells⟩
    cases he with
    | nil =>
      obtain rfl : Verdict.greater = v := by simpa [Datum.verdict?, Datum.verdictAll?] using hv
      obtain ⟨-, -, hleft⟩ := Compare.accepts_nil hne
      refine .list_nil (hm.lists hr c hc hne) (.inr rfl) ?_
      simp [hleft, ha.boxed_ne_zero]
    | cons hl' hb hhead' htail' =>
      exact decides_cells hm hr hσ hc hne ha hb (fun hc' hne' hv' => (ihhead hc' hne' hhead' hv').1)
        (fun hv' => (ihtail hc hne htail' hv').2 _ rfl hr) hv
    | _ => simp [Datum.verdict?] at hv
  | closure hp =>
    intro c e we v hc hne he hv
    exact ⟨decides_closure hm hc hne hp he hv, fun _ h => by cases h⟩

/-- **The function of a comparison says whether it holds** of the values that two words stand for. -/
theorem compare_represented (hm : m.Compares r) (hfloat : L.floats = true → r.floats = true)
    (hlist : L.lists = true → r.lists = true) (hσ : σ.memory = L.memory) (hc : c ∈ Compare.closure r)
    (hd : L.Represents wd d) (he : L.Represents we e) (hv : d.verdict? ops c.byIdentity e = some v) :
    m.Decides ops σ (Compare.function c) wd we (c.accepts v) := by
  by_cases hne : c = .ne
  · subst hne
    have heq := (decides_represented hm hfloat hlist hσ hd (c := .eq) (Comparison.eq_mem_closure_of_ne hc)
      (by decide) he hv).1
    have hnot : Comparison.ne.accepts v = !Comparison.eq.accepts v := by cases v <;> decide
    rw [hnot]
    exact heq.ne (hm.any .ne hc)
  · exact (decides_represented hm hfloat hlist hσ hd hc hne he hv).1

end

end WasmBackend
