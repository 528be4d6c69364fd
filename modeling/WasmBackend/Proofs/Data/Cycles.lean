/-
When reading a value back from memory ends. Reading goes through the cells of
a list one by one, so it does not end if the tails lead back to a cell that it
came from, nor if it does not end at the head of some cell. It ends in every
other case (`decode_ends_iff`): a list that has more cells than memory has
bytes has one of them twice (`cycle_of_chain`), so that a limit past the size
of memory changes nothing (`decodeWithin_eq`).
-/
import Mathlib
import WasmBackend.Value.Decode

namespace WasmBackend

open Relation

theorem Tag.of?_eq_some {w : Word} {t : Tag} (h : of? w = some t) : w.getLsbD 0 = false ∧ w &&& mask = t.bits := by
  rw [of?] at h
  split at h
  next => cases h
  next hw =>
    refine ⟨by simpa using (not_or.1 hw).1, ?_⟩
    split at h
    next hbits => cases h; exact hbits
    next =>
      split at h
      next hbits => cases h; exact hbits
      next =>
        split at h
        next hbits => cases h; exact hbits
        next => cases h

/-- A boxed word is its address and its tag. -/
theorem Word.eq_of_address {w v : Word} {t : Tag} (hw : Tag.of? w = some t) (hv : Tag.of? v = some t)
    (h : w.address = v.address) : w = v := by
  obtain ⟨hw0, hwbits⟩ := Tag.of?_eq_some hw
  obtain ⟨hv0, hvbits⟩ := Tag.of?_eq_some hv
  have hhigh : w >>> Tag.shift = v >>> Tag.shift := BitVec.eq_of_toNat_eq h
  have hlow (i : Nat) : (w.getLsbD i && Tag.mask.getLsbD i) = (v.getLsbD i && Tag.mask.getLsbD i) := by
    rw [← BitVec.getLsbD_and, ← BitVec.getLsbD_and, hwbits, hvbits]
  apply BitVec.eq_of_getLsbD_eq
  intro i _
  rcases i with _ | _ | _ | _ | i
  · rw [hw0, hv0]
  · simpa [Tag.mask] using hlow 1
  · simpa [Tag.mask] using hlow 2
  · simpa [Tag.mask] using hlow 3
  · change w.getLsbD (i + 4) = v.getLsbD (i + 4)
    simpa [Tag.shift, Nat.add_comm 4] using congrArg (·.getLsbD i) hhigh

namespace Value

variable {m : Memory} {item : Word → Reading Value} {w v head tail : Word} {limit : Nat}

/-- A cell of a list that is in memory, with its two parts. -/
structure Cell (m : Memory) (w head tail : Word) : Prop where
  tag : Tag.of? w = some .list
  head : m.loadWord (w.address + 4) = .ok head
  tail : m.loadWord w.address = .ok tail

/-- Reading goes on from a cell to its tail once its head is read. -/
def Follows (m : Memory) (item : Word → Reading Value) (w tail : Word) : Prop :=
  ∃ head x, Cell m w head tail ∧ (item head).run = some (.ok x)

/-- Reading comes to a cell whose tails lead back to it, or to one whose head is not read to an end. -/
def Stuck (m : Memory) (item : Word → Reading Value) (w : Word) : Prop :=
  ∃ v, ReflTransGen (Follows m item) w v ∧
    (TransGen (Follows m item) v v ∨ ∃ head tail, Cell m v head tail ∧ (item head).run = none)

/-! ## One cell -/

namespace Cell

theorem ne_empty (h : Cell m w head tail) : w ≠ Word.emptyList := by
  rintro rfl
  cases h.tag

theorem address_lt (h : Cell m w head tail) : w.address < m.size := by
  have htail := h.tail
  rw [Memory.loadWord] at htail
  split at htail
  next => omega
  next => cases htail

theorem cells_zero (h : Cell m w head tail) : (cells m item 0 w).run = none := by
  rw [cells, if_neg h.ne_empty]
  rfl

theorem cells_succ (h : Cell m w head tail) :
    cells m item (limit + 1) w = (do
      let first ← item head
      let rest ← cells m item limit tail
      return first :: rest) := by
  rw [cells, if_neg h.ne_empty, unbox, if_pos h.tag]
  change (do
    let head ← Reading.ofExcept (m.loadWord (w.address + 4))
    let first ← item head
    let tail ← Reading.ofExcept (m.loadWord w.address)
    let rest ← cells m item limit tail
    return first :: rest) = _
  rw [h.head, h.tail]
  rfl

/-- A head that is not read to an end. -/
theorem cells_none (h : Cell m w head tail) (hitem : (item head).run = none) : (cells m item limit w).run = none := by
  cases limit with
  | zero => exact h.cells_zero
  | succ limit =>
    rw [h.cells_succ, ExceptT.run_bind, hitem]
    rfl

end Cell

theorem Follows.cells_none_iff (h : Follows m item w tail) :
    (cells m item (limit + 1) w).run = none ↔ (cells m item limit tail).run = none := by
  obtain ⟨head, x, hcell, hx⟩ := h
  rw [hcell.cells_succ, ExceptT.run_bind, hx]
  change (do
    let rest ← cells m item limit tail
    return x :: rest : Reading (List Value)).run = none ↔ _
  rw [ExceptT.run_bind]
  rcases (cells m item limit tail).run with _ | e | items <;> simp

/-- Reading goes on at a word, or it does not get past its head, or it ends there. -/
theorem cells_cases (m : Memory) (item : Word → Reading Value) (w : Word) :
    (∃ tail, Follows m item w tail) ∨ (∃ head tail, Cell m w head tail ∧ (item head).run = none) ∨
      ∃ r, ∀ limit, (cells m item (limit + 1) w).run = some r := by
  by_cases hw : w = Word.emptyList
  · exact .inr (.inr ⟨.ok [], fun limit => by rw [cells, if_pos hw]; rfl⟩)
  by_cases htag : Tag.of? w = some .list
  swap
  · have hunbox : unbox w .list = .error (.notBoxed w .list) := if_neg htag
    exact .inr (.inr ⟨_, fun limit => by rw [cells, if_neg hw, hunbox]; rfl⟩)
  by_cases hsize : w.address + 4 + 4 ≤ m.size
  swap
  · have hunbox : unbox w .list = .ok w.address := if_pos htag
    have hload : m.loadWord (w.address + 4) = .error (.outOfBounds (w.address + 4)) := if_neg hsize
    refine .inr (.inr ⟨.error (.outOfBounds (w.address + 4)), fun limit => ?_⟩)
    rw [cells, if_neg hw, hunbox]
    change (Reading.ofExcept (m.loadWord (w.address + 4)) >>= _).run = _
    rw [hload]
    rfl
  have hcell : Cell m w (.ofNat 32 (m.number (w.address + 4) 4)) (.ofNat 32 (m.number w.address 4)) :=
    ⟨htag, if_pos hsize, if_pos (by omega)⟩
  rcases hitem : (item (.ofNat 32 (m.number (w.address + 4) 4))).run with _ | e | x
  · exact .inr (.inl ⟨_, _, hcell, hitem⟩)
  · refine .inr (.inr ⟨.error e, fun limit => ?_⟩)
    rw [hcell.cells_succ, ExceptT.run_bind, hitem]
    rfl
  · exact .inl ⟨_, _, x, hcell, hitem⟩

/-! ## Runs -/

/-- Reading that comes to a word does not end if it does not end from there. -/
theorem cells_none_of_reaches (h : ReflTransGen (Follows m item) w v)
    (hv : ∀ limit, (cells m item limit v).run = none) : ∀ limit, (cells m item limit w).run = none := by
  induction h using ReflTransGen.head_induction_on with
  | refl => exact hv
  | head hstep _ ih =>
    intro limit
    cases limit with
    | zero =>
      obtain ⟨head, x, hcell, -⟩ := hstep
      exact hcell.cells_zero
    | succ limit => exact hstep.cells_none_iff.2 (ih limit)

theorem cells_none_of_cycle (h : TransGen (Follows m item) w w) : ∀ limit, (cells m item limit w).run = none := by
  intro limit
  induction limit generalizing w with
  | zero =>
    obtain ⟨tail, ⟨head, x, hcell, -⟩, -⟩ := TransGen.head'_iff.1 h
    exact hcell.cells_zero
  | succ limit ih =>
    -- the tail of a cell on a cycle is on it as well
    obtain ⟨tail, hstep, hback⟩ := TransGen.head'_iff.1 h
    exact hstep.cells_none_iff.2 (ih (.tail' hback hstep))

theorem Stuck.cells_none (h : Stuck m item w) : ∀ limit, (cells m item limit w).run = none := by
  obtain ⟨v, hreach, hcycle | ⟨head, tail, hcell, hitem⟩⟩ := h
  · exact cells_none_of_reaches hreach (cells_none_of_cycle hcycle)
  · exact cells_none_of_reaches hreach fun _ => hcell.cells_none hitem

/-- A list that is not read within a limit goes on for as many cells, or reading is stuck at a head. -/
theorem chain_of_cells_none (h : (cells m item limit w).run = none) :
    (∃ chain : Nat → Word, chain 0 = w ∧ ∀ i < limit, Follows m item (chain i) (chain (i + 1))) ∨ Stuck m item w := by
  induction limit generalizing w with
  | zero => exact .inl ⟨fun _ => w, rfl, fun i hi => absurd hi (Nat.not_lt_zero i)⟩
  | succ limit ih =>
    rcases cells_cases m item w with ⟨tail, hstep⟩ | hhead | ⟨r, hr⟩
    · rcases ih (hstep.cells_none_iff.1 h) with ⟨chain, hzero, hchain⟩ | ⟨v, hreach, hv⟩
      · refine .inl ⟨fun i => Nat.casesOn i w chain, rfl, fun i hi => ?_⟩
        cases i with
        | zero =>
          change Follows m item w (chain 0)
          rwa [hzero]
        | succ i => exact hchain i (Nat.lt_of_succ_lt_succ hi)
      · exact .inr ⟨v, .head hstep hreach, hv⟩
    · exact .inr ⟨w, .refl, .inr hhead⟩
    · cases h.symm.trans (hr limit)

/-- A list of more cells than memory has bytes comes back to one of them. -/
theorem cycle_of_chain {chain : Nat → Word} (h : ∀ i < m.size + 1, Follows m item (chain i) (chain (i + 1))) :
    ∃ v, ReflTransGen (Follows m item) (chain 0) v ∧ TransGen (Follows m item) v v := by
  have hcell (i : Fin (m.size + 1)) : ∃ head, Cell m (chain i) head (chain (i + 1)) := by
    obtain ⟨head, x, hcell, -⟩ := h i i.isLt
    exact ⟨head, hcell⟩
  choose head hcell using hcell
  obtain ⟨i, j, hne, haddress⟩ := Fintype.exists_ne_map_eq_of_card_lt
    (fun i : Fin (m.size + 1) => (⟨(chain i).address, (hcell i).address_lt⟩ : Fin m.size)) (by simp)
  have heq : chain i = chain j := Word.eq_of_address (hcell i).tag (hcell j).tag (Fin.mk.inj haddress)
  wlog hij : i < j generalizing i j
  · exact this j i hne.symm haddress.symm heq.symm (lt_of_le_of_ne (le_of_not_gt hij) hne.symm)
  have hstep (k : Nat) (hk : k < m.size + 1) : Follows m item (chain k) (chain (Order.succ k)) := h k hk
  refine ⟨chain i, ?_, ?_⟩
  · exact (reflTransGen_of_succ_of_le (fun k l => Follows m item (chain k) (chain l))
      (fun k hk => hstep k (hk.2.trans i.isLt)) (Nat.zero_le i)).lift chain fun _ _ hkl => hkl
  · have hgen : TransGen (Follows m item) (chain i) (chain j) :=
      (transGen_of_succ_of_lt (fun k l => Follows m item (chain k) (chain l))
        (fun k hk => hstep k (hk.2.trans j.isLt)) (Fin.lt_def.1 hij)).lift chain fun _ _ hkl => hkl
    rwa [← heq] at hgen

/-- **Reading a list does not end within the size of memory exactly if it never ends.** -/
theorem cells_eq_none_iff : (cells m item (m.size + 1) w).run = none ↔ Stuck m item w := by
  refine ⟨fun h => ?_, fun h => h.cells_none _⟩
  rcases chain_of_cells_none h with ⟨chain, rfl, hchain⟩ | hstuck
  · obtain ⟨v, hreach, hcycle⟩ := cycle_of_chain hchain
    exact ⟨v, hreach, .inl hcycle⟩
  · exact hstuck

/-! ## Limits -/

namespace Reading

variable {α β : Type} {x y : Reading α} {f g : α → Reading β}

theorem bind_ne_none (hx : x.run ≠ none) (hf : ∀ a, (f a).run ≠ none) : (x >>= f).run ≠ none := by
  rw [ExceptT.run_bind]
  rcases hrun : x.run with _ | e | a
  · exact absurd hrun hx
  · simp
  · exact hf a

theorem ofExcept_ne_none (e : Except DecodeError α) : (ofExcept e).run ≠ none := Option.some_ne_none e

theorem pure_ne_none (a : α) : (pure a : Reading α).run ≠ none := Option.some_ne_none _

theorem throw_ne_none (e : DecodeError) : (throw e : Reading α).run ≠ none := Option.some_ne_none _

/-- What one reading comes to the other one comes to as well. -/
def Le (x y : Reading α) : Prop := ∀ r, x.run = some r → y.run = some r

theorem Le.refl (x : Reading α) : Le x x := fun _ h => h

theorem Le.bind (hx : Le x y) (hf : ∀ a, Le (f a) (g a)) : Le (x >>= f) (y >>= g) := by
  intro r h
  rw [ExceptT.run_bind] at h ⊢
  rcases hrun : x.run with _ | e | a
  · rw [hrun] at h
    cases h
  · rw [hrun] at h
    rw [hx _ hrun]
    exact h
  · rw [hrun] at h
    rw [hx _ hrun]
    exact hf a r h

end Reading

theorem cells_empty : ∀ limit, cells m item limit Word.emptyList = pure []
  | 0 => rfl
  | _ + 1 => rfl

theorem cells_le {other : Word → Reading Value} {larger : Nat} (hlimit : limit ≤ larger)
    (hitem : ∀ head, (item head).Le (other head)) (w : Word) :
    (cells m item limit w).Le (cells m other larger w) := by
  induction limit generalizing w larger with
  | zero =>
    by_cases hw : w = Word.emptyList
    · rw [hw, cells_empty, cells_empty]
      exact .refl _
    · intro r h
      rw [cells, if_neg hw] at h
      cases h
  | succ limit ih =>
    cases larger with
    | zero => exact absurd hlimit (Nat.not_succ_le_zero limit)
    | succ larger =>
      rw [cells, cells]
      split
      next => exact .refl _
      next =>
        exact (Reading.Le.refl _).bind fun address => (Reading.Le.refl _).bind fun head =>
          (hitem head).bind fun first => (Reading.Le.refl _).bind fun tail =>
            (ih (Nat.le_of_succ_le_succ hlimit) tail).bind fun rest => .refl _

/-- What is read within a limit is read within any larger one. -/
theorem decodeWithin_le {larger : Nat} (hlimit : limit ≤ larger) (ty : Ty) (w : Word) :
    (decodeWithin m limit ty w).Le (decodeWithin m larger ty w) := by
  induction ty generalizing w with
  | list item ih => exact (cells_le hlimit ih w).bind fun items => .refl _
  | int => exact .refl _
  | bool => exact .refl _
  | float => exact .refl _
  | func => exact .refl _
  | var => exact .refl _

/-- A limit past the size of memory changes nothing. -/
theorem decodeWithin_eq (hlimit : m.size + 1 ≤ limit) (ty : Ty) :
    decodeWithin m limit ty = decodeWithin m (m.size + 1) ty := by
  induction ty with
  | list item ih =>
    funext w
    have hcells (other : Word → Reading Value) : cells m other limit w = cells m other (m.size + 1) w := by
      rcases hrun : (cells m other (m.size + 1) w).run with _ | r
      · exact ((cells_eq_none_iff.1 hrun).cells_none limit).trans hrun.symm
      · exact (cells_le hlimit (fun head => .refl _) w _ hrun).trans hrun.symm
    rw [decodeWithin, decodeWithin, ih, hcells]
  | int => rfl
  | bool => rfl
  | float => rfl
  | func => rfl
  | var => rfl

/-! ## Endings -/

/-- Reading comes to a list whose tails lead back to one of its cells, or to a cell whose head is
endless, after it has read all that stands before. -/
def Endless (m : Memory) : Ty → Word → Prop
  | .list item, w => ∃ v, ReflTransGen (Follows m (decodeWithin m (m.size + 1) item)) w v ∧
      (TransGen (Follows m (decodeWithin m (m.size + 1) item)) v v ∨
        ∃ head tail, Cell m v head tail ∧ Endless m item head)
  | _, _ => False

/-- A word that is no list is read in a few steps. -/
theorem decodeWithin_ne_none {ty : Ty} (hty : ∀ item, ty ≠ .list item) : (decodeWithin m limit ty w).run ≠ none := by
  open Reading in
  cases ty with
  | int =>
    rw [decodeWithin]
    split
    next => exact pure_ne_none _
    next => exact throw_ne_none _
  | bool => exact pure_ne_none _
  | float =>
    exact bind_ne_none (ofExcept_ne_none _) fun address => bind_ne_none (ofExcept_ne_none _) fun x => pure_ne_none _
  | list item => exact absurd rfl (hty item)
  | func =>
    exact bind_ne_none (ofExcept_ne_none _) fun address => bind_ne_none (ofExcept_ne_none _) fun env =>
      bind_ne_none (ofExcept_ne_none _) fun index => pure_ne_none _
  | var => exact throw_ne_none _

theorem decode?_eq_none_iff {ty : Ty} : decode? m ty w = none ↔ Endless m ty w := by
  induction ty generalizing w with
  | list item ih =>
    have hlist : decode? m (.list item) w = none ↔
        (cells m (decodeWithin m (m.size + 1) item) (m.size + 1) w).run = none := by
      rw [decode?, decodeWithin, ExceptT.run_bind]
      rcases (cells m (decodeWithin m (m.size + 1) item) (m.size + 1) w).run with _ | e | items <;> simp
    rw [hlist, cells_eq_none_iff]
    simp only [Stuck, Endless, ← ih, decode?]
  | _ => exact iff_of_false (decodeWithin_ne_none (by simp)) id

/-- The tail of a cell. -/
def Leads (m : Memory) (w tail : Word) : Prop := ∃ head, Cell m w head tail

theorem Follows.leads (h : Follows m item w tail) : Leads m w tail := by
  obtain ⟨head, x, hcell, -⟩ := h
  exact ⟨head, hcell⟩

/-- Nothing is endless in a memory where no cell leads back to itself. -/
theorem not_endless_of_acyclic (h : ∀ v, ¬ TransGen (Leads m) v v) (ty : Ty) (w : Word) : ¬ Endless m ty w := by
  induction ty generalizing w with
  | list item ih =>
    rintro ⟨v, -, hcycle | ⟨head, tail, -, hhead⟩⟩
    · exact h v (hcycle.lift id fun _ _ => Follows.leads)
    · exact ih head hhead
  | _ => exact id

theorem decode?_eq_some_iff {ty : Ty} {r : Except DecodeError Value} :
    decode? m ty w = some r ↔ ∃ limit, (decodeWithin m limit ty w).run = some r := by
  constructor
  · intro h
    exact ⟨_, h⟩
  · rintro ⟨limit, h⟩
    rw [decode?, ← decodeWithin_eq (Nat.le_max_right limit (m.size + 1))]
    exact decodeWithin_le (Nat.le_max_left _ _) ty w r h

/-- **Reading ends, with a value or an error, exactly if it does not come to a list that leads
back to one of its cells.** Then the size of memory is limit enough. -/
theorem decode_ends_iff (m : Memory) (ty : Ty) (w : Word) :
    ((∃ limit r, (decodeWithin m limit ty w).run = some r) ↔ ¬ Endless m ty w) ∧
      (∀ r, (∃ limit, (decodeWithin m limit ty w).run = some r) ↔ decode? m ty w = some r) ∧
      ((∀ v, ¬ TransGen (Leads m) v v) → ∃ r, decode? m ty w = some r) := by
  have hends : (∃ r, decode? m ty w = some r) ↔ ¬ Endless m ty w := by
    rw [← Option.ne_none_iff_exists', ne_eq, decode?_eq_none_iff]
  refine ⟨?_, fun r => decode?_eq_some_iff.symm, fun h => hends.2 (not_endless_of_acyclic h ty w)⟩
  rw [← hends, exists_comm]
  simp only [decode?_eq_some_iff]

/-- The cells of `[1; 2]`, the last one first. -/
def twoCells : Memory := .ofBytes ⟨#[0, 0, 0, 0, 0, 0, 0, 0, 5, 0, 0, 0, 0x44, 0, 0, 0, 3, 0, 0, 0]⟩

theorem decode_ends_iff_twoCells : ¬ Endless twoCells (.list .int) 0xc4 ∧
    ∃ limit, (decodeWithin twoCells limit (.list .int) 0xc4).run = some (.ok (.list [.int 1, .int 2])) := by
  obtain ⟨hends, hdecode, -⟩ := decode_ends_iff twoCells (.list .int) 0xc4
  have hread := (hdecode (.ok (.list [.int 1, .int 2]))).2 rfl
  exact ⟨hends.1 (hread.imp fun limit h => ⟨_, h⟩), hread⟩

/-- A cell that is its own tail. -/
def selfTail : Memory := .ofBytes ⟨#[0, 0, 0, 0, 0x44, 0, 0, 0, 0, 0, 0, 0]⟩

/-- Reading it as a list of booleans goes on for as long as it may. -/
theorem selfTail_endless : ¬ ∃ limit r, (decodeWithin selfTail limit (.list .bool) 0x44).run = some r := by
  rintro ⟨limit, r, hr⟩
  have hstep : Follows selfTail (decodeWithin selfTail limit .bool) 0x44 0x44 :=
    ⟨0, .bool false, ⟨by decide, rfl, rfl⟩, rfl⟩
  have hcells := cells_none_of_cycle (.single hstep) limit
  rw [decodeWithin, ExceptT.run_bind, hcells] at hr
  cases hr

end Value

end WasmBackend
