/-
The comparator is right on values of one type: linked on its own, each of its
functions ends, changes nothing and answers whether its comparison holds
(`comparator_holds?`). Where no value is a double that is not a number and none
is a closure, values are in a total order, so that the answers of the six
comparisons fit together.
-/
import WasmBackend.Proofs.Assembly.Linking

namespace WasmBackend

open Library

/-- Values of a type. -/
inductive Datum.HasType : Datum → Ty → Prop
  | int (n : BitVec 31) : HasType (.int n) .int
  | bool (b : Bool) : HasType (.bool b) .bool
  | float (x : Double) : HasType (.float x) .float
  | list {items : List Datum} {item : Ty} : (∀ d ∈ items, HasType d item) → HasType (.list items) (.list item)
  | closure (i : Nat) (arg result : Ty) : HasType (.closure i) (.func arg result)

/-- Values without a double that is not a number. -/
inductive Datum.NanFree : Datum → Prop
  | int (n : BitVec 31) : NanFree (.int n)
  | bool (b : Bool) : NanFree (.bool b)
  | float {x : Double} : x.kind ≠ .nan → NanFree (.float x)
  | list {items : List Datum} : (∀ d ∈ items, NanFree d) → NanFree (.list items)
  | closure (i : Nat) : NanFree (.closure i)

/-- The types whose values a comparator can compare: with floats and lists only if it was asked for
them, and with closures only if they are to be told apart. -/
def Ty.Comparable (r : CompareRequest) (identity : Bool) : Ty → Prop
  | .int => True
  | .bool => True
  | .float => r.floats = true
  | .list item => r.lists = true ∧ item.Comparable r identity
  | .func _ _ => identity = true
  | .var _ => False

variable {ops : FloatOps} {r : CompareRequest} {identity : Bool}

/-- Two lists stand to each other as their items do. -/
theorem Datum.verdictAll?_of_items {p : Prop} {xs ys : List Datum}
    (h : ∀ x ∈ xs, ∀ y ∈ ys, ∃ v, x.verdict? ops identity y = some v ∧
      (p → x.NanFree → y.NanFree → v ≠ .unordered)) :
    ∃ v, Datum.verdictAll? ops identity xs ys = some v ∧
      (p → (∀ x ∈ xs, x.NanFree) → (∀ y ∈ ys, y.NanFree) → v ≠ .unordered) := by
  induction xs generalizing ys with
  | nil => cases ys <;> simp [Datum.verdictAll?]
  | cons x xs ih =>
    cases ys with
    | nil => simp [Datum.verdictAll?]
    | cons y ys =>
      obtain ⟨u, hu, huord⟩ := h x (by simp) y (by simp)
      obtain ⟨v, hv, hvord⟩ := ih fun x hx y hy => h x (List.mem_cons_of_mem _ hx) y (List.mem_cons_of_mem _ hy)
      simp only [Datum.verdictAll?, hu]
      by_cases heq : u = .equal
      · subst heq
        exact ⟨v, hv, fun hp hxs hys => hvord hp (fun x hx => hxs x (by simp [hx])) fun y hy => hys y (by simp [hy])⟩
      · refine ⟨u, ?_, fun hp hxs hys => huord hp (hxs x (by simp)) (hys y (by simp))⟩
        cases u with
        | equal => exact absurd rfl heq
        | _ => rfl

/-- Values of one type stand in some way to each other, and are ordered if nothing speaks against it. -/
theorem Datum.verdict?_of_hasType (ops : FloatOps) {ty : Ty} {d e : Datum} (hty : ty.Comparable r identity) (hd : d.HasType ty)
    (he : e.HasType ty) : ∃ v, d.verdict? ops identity e = some v ∧
      (ty.Comparable r false → d.NanFree → e.NanFree → v ≠ .unordered) := by
  induction ty generalizing d e with
  | int =>
    cases hd with | int m =>
    cases he with | int n =>
    refine ⟨.ofOrdering (compare m.toInt n.toInt), by simp only [Datum.verdict?], fun _ _ _ => ?_⟩
    cases compare m.toInt n.toInt <;> decide
  | bool =>
    cases hd with | bool b =>
    cases he with | bool c =>
    refine ⟨.ofOrdering (compare b c), by simp only [Datum.verdict?], fun _ _ _ => ?_⟩
    cases compare b c <;> decide
  | float =>
    cases hd with | float x =>
    cases he with | float y =>
    refine ⟨ops.verdict x y, by simp only [Datum.verdict?], fun _ hx hy => ?_⟩
    cases hx with | float hx =>
    cases hy with | float hy =>
    exact ops.ordered x y hx hy
  | list item ih =>
    cases hd with | @list xs _ hxs =>
    cases he with | @list ys _ hys =>
    obtain ⟨v, hv, hord⟩ := Datum.verdictAll?_of_items fun x hx y hy => ih hty.2 (hxs x hx) (hys y hy)
    refine ⟨v, by simpa only [Datum.verdict?] using hv, fun hitem hnx hny => ?_⟩
    cases hnx with | list hnx =>
    cases hny with | list hny =>
    exact hord hitem.2 hnx hny
  | func arg result =>
    cases hd with | closure i =>
    cases he with | closure j =>
    obtain rfl : identity = true := hty
    exact ⟨if i = j then .equal else .unordered, by simp [Datum.verdict?], fun h => by cases h⟩
  | var n => exact hty.elim

/-- A layout in which there are the floats and lists that were asked for. -/
def Layout.withRequest (L : Layout) (r : CompareRequest) : Layout :=
  { L with floats := r.floats, lists := r.lists }

/-- Values of a type that can be compared have floats and lists only if they were asked for. -/
theorem Layout.Represents.withRequest {L : Layout} {ty : Ty} {w : Word} {d : Datum} (h : L.Represents w d)
    (hty : ty.Comparable r identity) (hd : d.HasType ty) : (L.withRequest r).Represents w d := by
  induction h generalizing ty with
  | int n => exact .int n
  | bool b => exact .bool b
  | float _ ha =>
    cases hd
    exact .float hty ⟨ha.start_le, ha.le_top, ha.value⟩
  | nil => exact .nil
  | cons _ ha _ _ ihhead ihtail =>
    cases hd with | list hitems =>
    exact .cons hty.1 ⟨ha.start_le, ha.le_top, ha.first, ha.second⟩ (ihhead hty.2 (hitems _ (by simp)))
      (ihtail hty (.list fun x hx => hitems x (by simp [hx])))
  | closure hp => exact .closure hp

/-- The answer to each comparison, given those to the three that exclude each other. -/
def Comparison.answer (less equal greater : Bool) : Comparison → Bool
  | lt => less
  | le => less || equal
  | gt => greater
  | ge => greater || equal
  | eq => equal
  | ne => !equal

/-- What is less, equal or greater is exactly one of these. -/
theorem Comparison.accepts_eq_answer {v : Verdict} (h : v ≠ .unordered) :
    ∃ less equal greater : Bool, [less, equal, greater].count true = 1 ∧
      ∀ c : Comparison, c.accepts v = c.answer less equal greater := by
  refine ⟨v = .less, v = .equal, v = .greater, ?_, fun c => ?_⟩
  · cases v <;> first | decide | exact absurd rfl h
  · cases v <;> cases c <;> decide

theorem Datum.holds?_eq {c : Comparison} {d e : Datum} {v : Verdict}
    (h : d.verdict? ops c.byIdentity e = some v) : d.holds? ops c e = some (c.accepts v) :=
  congrArg (Option.map c.accepts) h

/-- **The comparator decides the order of values.** On words for two values of one type, every
function that was asked for ends with one if its comparison holds and zero if not, in the store it
was called in. Without closures and doubles that are not numbers exactly one of less, equal and
greater holds, and the other comparisons are made of these. -/
theorem comparator_decides_order (ops : FloatOps) (r : CompareRequest) (pages : Nat) {L : Layout} {σ : Store}
    {ty : Ty} {d e : Datum} {wd we : Word} (hσ : σ.memory = L.memory) (hd : d.HasType ty) (he : e.HasType ty)
    (hwd : L.Represents wd d) (hwe : L.Represents we e) :
    ∃ m, (comparator r pages).link [] = .ok m ∧
      (∀ c ∈ r.ops, ty.Comparable r c.byIdentity → ∃ b, d.holds? ops c e = some b ∧
        m.Answers ops (Compare.function c) [.word we, .word wd] σ (.next ([.ofBool b], σ))) ∧
      (ty.Comparable r false → d.NanFree → e.NanFree → ∃ less equal greater : Bool,
        [less, equal, greater].count true = 1 ∧
        ∀ c : Comparison, d.holds? ops c e = some (c.answer less equal greater)) := by
  obtain ⟨m, hm, hcompares⟩ := link_comparator r pages
  refine ⟨m, hm, fun c hc hty => ?_, fun hty hnd hne => ?_⟩
  · obtain ⟨v, hv, -⟩ := Datum.verdict?_of_hasType ops hty hd he
    refine ⟨c.accepts v, Datum.holds?_eq hv, ?_⟩
    have hmem : c ∈ Compare.closure r := by simp [Comparison.mem_closure, Compare.needs, hc]
    exact compare_represented hcompares (L := L.withRequest r) (fun h => h) (fun h => h) hσ hmem
      (hwd.withRequest hty hd) (hwe.withRequest hty he) hv []
  · obtain ⟨v, hv, hord⟩ := Datum.verdict?_of_hasType ops hty hd he
    obtain ⟨less, equal, greater, hone, hanswer⟩ := Comparison.accepts_eq_answer (hord hty hnd hne)
    refine ⟨less, equal, greater, hone, fun c => ?_⟩
    rw [← hanswer]
    refine Datum.holds?_eq ?_
    cases c.byIdentity
    · exact hv
    · exact Datum.verdict?_true hv

/-- A memory with the lists `[1]` at address 4 and `[1; 2]` at address 20. -/
def Layout.twoLists : Layout where
  memory := (((Memory.zeros 64).setPair 4 0 (.pack 1)).setPair 12 0 (.pack 2)).setPair 20
    (.boxed (.ofNat 32 12) .list) (.pack 1)
  top := 28
  places := []
  floats := false
  lists := true
  top_le_size := by decide
  top_le := by decide
  place_lt := by decide
  places_nodup := .nil

theorem Layout.twoLists_represents :
    twoLists.Represents (.boxed (.ofNat 32 4) .list) (.list [.int 1]) ∧
      twoLists.Represents (.boxed (.ofNat 32 20) .list) (.list [.int 1, .int 2]) :=
  ⟨.cons rfl ⟨by decide, by decide, rfl, rfl⟩ (.int 1) .nil,
    .cons rfl ⟨by decide, by decide, rfl, rfl⟩ (.int 1)
      (.cons (a := 12) rfl ⟨by decide, by decide, rfl, rfl⟩ (.int 2) .nil)⟩

/-- A list is less than one it is the beginning of. -/
theorem comparator_decides_order_twoLists :
    ∃ m, (comparator ⟨[.lt], false, true⟩ 1).link [] = .ok m ∧
      m.Answers default (Compare.function .lt)
        [.word (.boxed (.ofNat 32 20) .list), .word (.boxed (.ofNat 32 4) .list)]
        ⟨Layout.twoLists.memory, fun _ => none⟩
        (.next ([.word 1], ⟨Layout.twoLists.memory, fun _ => none⟩)) := by
  have hty : ∀ items : List (BitVec 31), (Datum.list (items.map .int)).HasType (.list .int) :=
    fun items => .list fun d hd => by
      obtain ⟨n, -, rfl⟩ := List.mem_map.1 hd
      exact .int n
  obtain ⟨m, hm, hanswers, -⟩ := comparator_decides_order default ⟨[.lt], false, true⟩ 1
    (show (⟨Layout.twoLists.memory, fun _ => none⟩ : Store).memory = Layout.twoLists.memory from rfl)
    (hty [1]) (hty [1, 2])
    Layout.twoLists_represents.1 Layout.twoLists_represents.2
  obtain ⟨b, hb, h⟩ := hanswers .lt (by decide) ⟨rfl, trivial⟩
  have hless : (Datum.list [.int 1]).holds? default .lt (.list [.int 1, .int 2]) = some true := by
    simp [Datum.holds?, Datum.verdict?, Datum.verdictAll?, Comparison.accepts]
    decide
  cases hb.symm.trans hless
  exact ⟨m, hm, h⟩

end WasmBackend
