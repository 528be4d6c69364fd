/-
Values built by the library's code are read back as they were
(`built_decodes`). A value is built by boxing doubles and pushing items onto
lists, in any order and with any other calls between and after; its cells
are below the top of the heap from then on (`Module.Built.represents`), where
no call changes them.

A list is never longer than the memory that its cells take up, so reading it
comes to an end.
-/
import WasmBackend.Proofs.Heap.Growth

namespace WasmBackend

open Library Relation

/-! ## Building -/

/-- A value of a type, with integers of 31 bits and no functions. -/
inductive Value.HasType : Value → Ty → Prop
  | int (n : Word) : -2 ^ 30 ≤ n.toInt → n.toInt < 2 ^ 30 → HasType (.int n) .int
  | bool (b : Bool) : HasType (.bool b) .bool
  | float (x : Double) : HasType (.float x) .float
  | list {items : List Value} {item : Ty} : (∀ v ∈ items, HasType v item) → HasType (.list items) (.list item)

/-- A call that ends takes one store to another. The allocator itself can be called with any size
with which the top of the heap does not wrap around. -/
inductive Module.Step (ops : FloatOps) (m : Module) : Store → Store → Prop
  | call {σ τ : Store} {f : String} {args results : List Operand} : f ≠ Heap.alloc →
      m.Answers ops f args σ (.next (results, τ)) → Step ops m σ τ
  | reserve {σ τ : Store} {a size : Word} : a.toNat + size.toNat < 2 ^ 32 →
      m.Answers ops Heap.alloc [.word size] σ (.next ([.word a], τ)) → Step ops m σ τ

/-- The stores that calls lead to. -/
def Module.Reaches (ops : FloatOps) (m : Module) (σ : Store) : Prop := ReflTransGen (m.Step ops) m.initial σ

/-- A word was made for a value by calls that all ended. -/
inductive Module.Built (ops : FloatOps) (m : Module) : Store → Word → Value → Prop
  | int {σ : Store} (n : Word) : m.Reaches ops σ → Built ops m σ (.int n) (.int n)
  | bool {σ : Store} (b : Bool) : m.Reaches ops σ → Built ops m σ (.bool b) (.bool b)
  | float {σ τ : Store} {w : Word} (x : Double) : m.Reaches ops σ →
      m.Answers ops Floats.new [.double x] σ (.next ([.word w], τ)) → Built ops m τ w (.float x)
  | empty {σ τ : Store} {w : Word} : m.Reaches ops σ →
      m.Answers ops Lists.empty [] σ (.next ([.word w], τ)) → Built ops m τ w (.list [])
  | push {σ τ : Store} {w tail head : Word} {v : Value} {vs : List Value} : Built ops m σ tail (.list vs) →
      Built ops m σ head v → m.Answers ops Lists.push [.word head, .word tail] σ (.next ([.word w], τ)) →
      Built ops m τ w (.list (v :: vs))
  | later {σ τ : Store} {w : Word} {v : Value} : Built ops m σ w v → m.Step ops σ τ → Built ops m τ w v

mutual

/-- How many cells a value takes. -/
def Value.cellCount : Value → Nat
  | .float _ => 1
  | .list items => cellCountAll items
  | _ => 0
termination_by structural v => v

def Value.cellCountAll : List Value → Nat
  | [] => 0
  | item :: items => cellCountAll items + item.cellCount + 1
termination_by structural items => items

end

/-! ## Values and what stands for them -/

theorem Word.signExtend_setWidth {n : Word} (hlow : -2 ^ 30 ≤ n.toInt) (hhigh : n.toInt < 2 ^ 30) :
    (n.setWidth 31).signExtend 32 = n := by
  apply BitVec.eq_of_toInt_eq
  rw [BitVec.toInt_signExtend_of_le (by decide), BitVec.toInt_setWidth, BitVec.toInt_eq_toNat_cond, Int.bmod]
  rw [BitVec.toInt_eq_toNat_cond] at hlow hhigh
  split <;> split <;> omega

/-- What a value is in memory, when no list has more than `limit` items. -/
inductive Datum.Encodes (limit : Nat) : Datum → Value → Prop
  | int (n : Word) : Encodes limit (.int (n.setWidth 31)) (.int n)
  | bool (b : Bool) : Encodes limit (.bool b) (.bool b)
  | float (x : Double) : Encodes limit (.float x) (.float x)
  | nil : Encodes limit (.list []) (.list [])
  | cons {d : Datum} {ds : List Datum} {v : Value} {vs : List Value} : Encodes limit d v →
      Encodes limit (.list ds) (.list vs) → ds.length < limit → Encodes limit (.list (d :: ds)) (.list (v :: vs))

namespace Datum.Encodes

variable {limit limit' : Nat} {d : Datum} {v : Value}

theorem mono (h : Encodes limit d v) (hle : limit ≤ limit') : Encodes limit' d v := by
  induction h with
  | int n => exact .int n
  | bool b => exact .bool b
  | float x => exact .float x
  | nil => exact .nil
  | cons _ _ hlen ihd ihds => exact .cons ihd ihds (Nat.lt_of_lt_of_le hlen hle)

theorem eq_list {vs : List Value} (h : Encodes limit d (.list vs)) : ∃ ds, d = .list ds := by
  cases h with
  | nil => exact ⟨[], rfl⟩
  | cons => exact ⟨_, rfl⟩

theorem length_le {ds : List Datum} (h : Encodes limit (.list ds) v) : ds.length ≤ limit := by
  cases h with
  | nil => exact Nat.zero_le limit
  | cons _ _ hlen => exact hlen

/-- A value is read back at its type. -/
theorem read (h : Encodes limit d v) {ty : Ty} (hty : v.HasType ty) : d.read limit ty = some v := by
  induction h generalizing ty with
  | int n =>
    cases hty with
    | int _ hlow hhigh => rw [Datum.read, Word.signExtend_setWidth hlow hhigh]
  | bool b =>
    cases hty
    rw [Datum.read]
  | float x =>
    cases hty
    rw [Datum.read]
  | nil =>
    cases hty
    simp [Datum.read]
  | @cons d ds v vs _ _ hlen ihd ihds =>
    cases hty with
    | @list _ item hitems =>
      obtain ⟨hv, hvs⟩ := List.forall_mem_cons.1 hitems
      have hhead := ihd hv
      have htail := ihds (.list hvs)
      rw [Datum.read, if_pos (Nat.le_of_lt hlen)] at htail
      obtain ⟨items, hmap, heq⟩ := Option.map_eq_some_iff.1 htail
      cases heq
      rw [Datum.read, List.length_cons, if_pos (Nat.succ_le_of_lt hlen), List.mapM_cons, hhead, hmap]
      rfl

end Datum.Encodes

/-! ## Steps -/

variable {ops : FloatOps} {m : Module} {σ τ : Store} {w : Word} {v : Value} {limit a b : Nat}

/-- What a call that made a cell did. -/
theorem Alloc.made (hm : ∀ f, m.Supports f) (hσ : σ.UsedTo limit a) {c : Alloc}
    (h : m.Answers ops c.function c.arguments σ (.next ([.word w], τ))) :
    a + 8 ≤ limit ∧ w = c.word (.ofNat 32 a) ∧ τ = c.place σ (.ofNat 32 a) := by
  have hanswers := c.answers ops hm hσ.top
  rw [hσ.toNat, hσ.size] at hanswers
  by_cases hfit : a + 8 ≤ limit
  · rw [if_pos hfit] at hanswers
    cases h.unique hanswers
    exact ⟨hfit, rfl, rfl⟩
  · rw [if_neg hfit] at hanswers
    cases h.unique hanswers

theorem Alloc.function_ne_alloc (c : Alloc) : c.function ≠ Heap.alloc := by
  cases c <;> (simp only [function]; decide)

/-- Where there is room, a cell is made. -/
theorem Alloc.answers_of_fits (ops : FloatOps) (hm : ∀ f, m.Supports f) (hσ : σ.UsedTo limit a) (hfit : a + 8 ≤ limit)
    (c : Alloc) : m.Answers ops c.function c.arguments σ
      (.next ([.word (c.word (.ofNat 32 a))], c.place σ (.ofNat 32 a))) := by
  have hanswers := c.answers ops hm hσ.top
  rwa [hσ.toNat, hσ.size, if_pos hfit] at hanswers

namespace Module

/-- **No step writes to what is in use.** -/
theorem Step.grows (hm : m.Careful) (hs : m.Supports .allocator) (hlimit : limit ≤ 2 ^ 27) (h : m.Step ops σ τ) :
    σ.Grows limit τ := by
  cases h with
  | @call f args results hf hanswers =>
    obtain ⟨d, hd⟩ := hanswers
    have hgrown : (m.invoke ops d f args σ).GrownFrom limit σ Prod.snd := hm.invoke_grows hlimit d f hf args σ
    rw [hd d (Nat.le_refl d)] at hgrown
    exact hgrown
  | @reserve w size hlt hanswers =>
    intro a hσ
    cases hanswers.unique (.of_eq 1 fun n => invoke_alloc hs hσ.top size)
    rw [hσ.toNat] at hlt
    exact ⟨a + size.toNat, Nat.le_add_right _ _, hσ.setTop hlt, fun _ _ => rfl⟩

theorem Built.reaches (h : m.Built ops σ w v) : m.Reaches ops σ := by
  induction h with
  | int _ h => exact h
  | bool _ h => exact h
  | float _ h hanswers => exact h.tail (.call (by decide) hanswers)
  | empty h hanswers => exact h.tail (.call (by decide) hanswers)
  | push _ _ hanswers ih _ => exact ih.tail (.call (by decide) hanswers)
  | later _ hstep ih => exact ih.tail hstep

theorem Built.mono (h : m.Built ops σ w v) (hsteps : ReflTransGen (m.Step ops) σ τ) : m.Built ops τ w v := by
  induction hsteps with
  | refl => exact h
  | tail _ hstep ih => exact ih.later hstep

theorem Reaches.usedTo (hm : m.Careful) (hs : m.Supports .allocator) (hlimit : limit ≤ 2 ^ 27)
    (hstart : m.initial.UsedTo limit a) (h : m.Reaches ops σ) : ∃ b, σ.UsedTo limit b := by
  induction h with
  | refl => exact ⟨a, hstart⟩
  | tail _ hstep ih =>
    obtain ⟨b, hb⟩ := ih
    obtain ⟨d, -, hd, -⟩ := hstep.grows hm hs hlimit b hb
    exact ⟨d, hd⟩

end Module

/-! ## What is built is in memory -/

/-- The memory of a store, as far as it is in use. -/
def Store.UsedTo.layout (h : σ.UsedTo limit a) (hlimit : limit ≤ 2 ^ 27) : Layout where
  memory := σ.memory
  top := min a limit
  places := []
  floats := true
  lists := true
  top_le_size := h.size ▸ Nat.min_le_right a limit
  top_le := Nat.le_trans (Nat.min_le_right a limit) hlimit
  place_lt := nofun
  places_nodup := List.nodup_nil

theorem Store.Grows.extends (hlimit : limit ≤ 2 ^ 27) (h : σ.Grows limit τ) (hσ : σ.UsedTo limit a)
    (hτ : τ.UsedTo limit b) : (hσ.layout hlimit).Extends (hτ.layout hlimit) := by
  obtain ⟨d, had, hd, hbytes⟩ := h a hσ
  cases hd.unique hτ
  refine ⟨hτ.size.trans hσ.size.symm, fun i hi => hbytes i ?_, ?_, List.prefix_refl _, rfl, rfl⟩
  · exact Nat.lt_of_lt_of_le hi (Nat.min_le_left a limit)
  · show min a limit ≤ min b limit
    omega

/-- The address and the contents of a new cell. -/
theorem Store.UsedTo.stored_place (h : σ.UsedTo limit a) (hfit : a + 8 ≤ limit) (c : Alloc) :
    4 ≤ a ∧ a + 8 ≤ min (a + 8) limit ∧ c.Stored (c.place σ (.ofNat 32 a)).memory a := by
  have hstored : c.Stored (c.place σ (.ofNat 32 a)).memory (BitVec.ofNat 32 a).toNat :=
    Alloc.stored_place (by rw [h.toNat, h.size]; exact hfit)
  rw [h.toNat] at hstored
  exact ⟨h.start, by omega, hstored⟩

/-- A word made for a value stands for it from then on. -/
theorem Module.Built.represents (hm : m.Careful) (hs : ∀ f, m.Supports f) (hlimit : limit ≤ 2 ^ 27)
    (hstart : m.initial.UsedTo limit Word.heapStart.toNat) (h : m.Built ops σ w v) (hσ : σ.UsedTo limit a) :
    ∃ d, (hσ.layout hlimit).Represents w d ∧ d.Encodes (min a limit) v := by
  induction h generalizing a with
  | int n _ => exact ⟨.int (n.setWidth 31), Word.int_eq_pack n ▸ .int _, .int n⟩
  | bool b _ => exact ⟨.bool b, .bool b, .bool b⟩
  | @float σ τ w x hreach hanswers =>
    obtain ⟨e, he⟩ := hreach.usedTo hm (hs _) hlimit hstart
    obtain ⟨hfit, rfl, rfl⟩ := Alloc.made (c := .float x) hs he hanswers
    cases hσ.unique (he.place hlimit hfit _)
    obtain ⟨hlow, htop, hstored⟩ := he.stored_place hfit (.float x)
    exact ⟨.float x, .float rfl ⟨hlow, htop, hstored⟩, .float x⟩
  | @empty σ τ w hreach hanswers =>
    cases hanswers.unique (.of_eq 1 fun n => invoke_listEmpty (hs _))
    exact ⟨.list [], .nil, .nil⟩
  | @push σ τ w tail head v vs htail hhead hanswers ihtail ihhead =>
    obtain ⟨e, he⟩ := htail.reaches.usedTo hm (hs _) hlimit hstart
    obtain ⟨hfit, rfl, rfl⟩ := Alloc.made (c := .cell tail head) hs he hanswers
    cases hσ.unique (he.place hlimit hfit _)
    obtain ⟨_, hds, hvs⟩ := ihtail he
    obtain ⟨ds, rfl⟩ := hvs.eq_list
    obtain ⟨d, hd, hv⟩ := ihhead he
    obtain ⟨hlow, htop, hfirst, hsecond⟩ := he.stored_place hfit (.cell tail head)
    have hext := (Alloc.grows_place (.cell tail head) hlimit he hfit).extends hlimit he hσ
    -- the new cell is above all cells of the tail, so there is memory for one more item
    have hlen : ds.length < min (e + 8) limit := by
      have hle := hvs.length_le
      omega
    exact ⟨.list (d :: ds), .cons rfl ⟨hlow, htop, hfirst, hsecond⟩ (hd.mono hext) (hds.mono hext),
      .cons (hv.mono hext.top_le_top) (hvs.mono hext.top_le_top) hlen⟩
  | @later σ τ w v hbuilt hstep ih =>
    obtain ⟨e, he⟩ := hbuilt.reaches.usedTo hm (hs _) hlimit hstart
    obtain ⟨d, hd, hv⟩ := ih he
    have hext := (hstep.grows hm (hs _) hlimit).extends hlimit he hσ
    exact ⟨d, hd.mono hext, hv.mono hext.top_le_top⟩

/-! ## Building every value -/

mutual

/-- Where there is room for a value, it can be built. -/
theorem Module.exists_built (hs : ∀ f, m.Supports f) (hlimit : limit ≤ 2 ^ 27) : ∀ (v : Value) {ty : Ty}
    {σ : Store} {a : Nat}, v.HasType ty → m.Reaches ops σ → σ.UsedTo limit a → a + 8 * v.cellCount ≤ limit →
    ∃ τ w, ReflTransGen (m.Step ops) σ τ ∧ m.Built ops τ w v ∧ τ.UsedTo limit (a + 8 * v.cellCount)
  | .int n, _, σ, a, _, hreach, hσ, _ => ⟨σ, .int n, .refl, .int n hreach, hσ⟩
  | .bool b, _, σ, a, _, hreach, hσ, _ => ⟨σ, .bool b, .refl, .bool b hreach, hσ⟩
  | .float x, _, σ, a, _, hreach, hσ, hfit => by
    have hanswers := Alloc.answers_of_fits ops hs hσ hfit (.float x)
    exact ⟨_, _, .single (.call (Alloc.function_ne_alloc _) hanswers), .float x hreach hanswers, hσ.place hlimit hfit _⟩
  | .list items, _, σ, a, hty, hreach, hσ, hfit => by
    cases hty with
    | list hitems => exact exists_built_list hs hlimit items hitems hreach hσ hfit
  | .closure _ _, _, _, _, hty, _, _, _ => nomatch hty
termination_by structural v => v

/-- A list is built from its end. -/
theorem Module.exists_built_list (hs : ∀ f, m.Supports f) (hlimit : limit ≤ 2 ^ 27) : ∀ (items : List Value) {item : Ty}
    {σ : Store} {a : Nat}, (∀ v ∈ items, v.HasType item) → m.Reaches ops σ → σ.UsedTo limit a →
    a + 8 * Value.cellCountAll items ≤ limit → ∃ τ w, ReflTransGen (m.Step ops) σ τ ∧ m.Built ops τ w (.list items) ∧
      τ.UsedTo limit (a + 8 * Value.cellCountAll items)
  | [], _, σ, a, _, hreach, hσ, _ =>
    ⟨σ, Word.emptyList, .refl, .empty hreach (.of_eq 1 fun n => invoke_listEmpty (hs _)), hσ⟩
  | v :: vs, item, σ, a, hitems, hreach, hσ, hfit => by
    obtain ⟨hv, hvs⟩ := List.forall_mem_cons.1 hitems
    rw [Value.cellCountAll] at hfit ⊢
    obtain ⟨σ₁, tail, hsteps₁, htail, hσ₁⟩ := exists_built_list hs hlimit vs hvs hreach hσ (by omega)
    obtain ⟨σ₂, head, hsteps₂, hhead, hσ₂⟩ := exists_built hs hlimit v hv htail.reaches hσ₁ (by omega)
    have hanswers := Alloc.answers_of_fits ops hs hσ₂ (by omega) (.cell tail head)
    have hsteps := (hsteps₁.trans hsteps₂).tail (.call (Alloc.function_ne_alloc _) hanswers)
    refine ⟨_, _, hsteps, .push (htail.mono hsteps₂) hhead hanswers, ?_⟩
    have hplace := hσ₂.place hlimit (by omega) (.cell tail head)
    have hsum : a + 8 * Value.cellCountAll vs + 8 * v.cellCount + 8 =
        a + 8 * (Value.cellCountAll vs + v.cellCount + 1) := by omega
    rwa [hsum] at hplace
termination_by structural items => items

end

/-- **Values are read back as they were built.** In the library with any valid number of pages, a word
that was made for a value, by any calls that ended and with any calls after them, is read at the
value's type as just that value. Where there is room for its cells, every value can be built. -/
theorem built_decodes (ops : FloatOps) (settings : Settings) (hvalid : settings.validate = .ok ()) :
    let limit := settings.memoryPages.toNat * Module.pageSize
    ∃ m, (Library.whole settings.memoryPages.toNat).link [] = .ok m ∧
      (∀ σ w v ty, m.Built ops σ w v → v.HasType ty → ty.functionFree = true →
        Value.decode? σ.memory ty w = some (.ok v)) ∧
      ∀ σ a v ty, m.Reaches ops σ → σ.UsedTo limit a → v.HasType ty → a + 8 * v.cellCount ≤ limit →
        ∃ τ w, ReflTransGen (m.Step ops) σ τ ∧ m.Built ops τ w v ∧ τ.UsedTo limit (a + 8 * v.cellCount) := by
  intro limit
  obtain ⟨hlow, hlimit⟩ := Settings.memory_le hvalid
  have hs := supports_library settings.memoryPages.toNat
  have hm := careful_library settings.memoryPages.toNat
  have hstart := (endsAt_initial settings.memoryPages.toNat hlow).usedTo hlimit
  refine ⟨_, link_whole settings.memoryPages.toNat, fun σ w v ty hbuilt hty hfree => ?_,
    fun σ a v ty hreach hσ hty hfit => Module.exists_built hs hlimit v hty hreach hσ hfit⟩
  obtain ⟨a, hσ⟩ := hbuilt.reaches.usedTo hm (hs _) hlimit hstart
  obtain ⟨d, hd, hv⟩ := hbuilt.represents hm hs hlimit hstart hσ
  refine (Value.decode?_represents hfree hd).2 ((hv.mono ?_).read hty)
  have hsize := hσ.size
  show min a _ ≤ σ.memory.size + 1
  omega

/-- A list of lists of doubles, one of them not a number, is built in one page, and is read back after
another double was boxed. -/
theorem built_decodes_nested :
    let settings := { Settings.default with memoryPages := 1 }
    let v : Value := .list [.list [.float 0x7FF8000000000001, .float 0x8000000000000000], .list []]
    settings.validate = .ok () ∧ ∃ m, (Library.whole 1).link [] = .ok m ∧ ∃ σ w w',
      m.Built default σ w v ∧ m.Built default σ w' (.float 1) ∧
        Value.decode? σ.memory (.list (.list .float)) w = some (.ok v) := by
  intro settings v
  obtain ⟨m, hlink, hdecode, hbuild⟩ := built_decodes default settings rfl
  cases hlink.symm.trans (link_whole 1)
  have hty : v.HasType (.list (.list .float)) := by
    refine .list (List.forall_mem_cons.2 ⟨.list ?_, List.forall_mem_singleton.2 (.list nofun)⟩)
    exact List.forall_mem_cons.2 ⟨.float _, List.forall_mem_singleton.2 (.float _)⟩
  have hstart := (endsAt_initial 1 (by decide)).usedTo (by decide)
  obtain ⟨σ, w, hsteps, hv, hσ⟩ := hbuild _ _ v _ .refl hstart hty (by decide)
  obtain ⟨τ, w', hlater, hx, -⟩ := hbuild _ _ (.float 1) _ hsteps hσ (.float 1) (by decide)
  exact ⟨rfl, _, hlink, τ, w, w', hv.mono hlater, hx, hdecode τ w v _ (hv.mono hlater) hty rfl⟩

end WasmBackend
