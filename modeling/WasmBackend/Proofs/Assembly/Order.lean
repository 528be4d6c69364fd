/-
The order in which components are linked. Where a name stands for one
component only, it is the order in which a walk through the whole tree leaves
the components, with the first of each name kept (`order_eq_firsts`), though
the walk turns back at every name that it has met. A name that was met and is
met again is never that of a component still being visited, since none is
part of itself, so that all below it is there already (`Traversal.Sound`).

Where names clash, each still comes once, and the root last.
-/
import Mathlib
import WasmBackend.Library.Heap

namespace WasmBackend.Component

/-! ## Walks through a tree -/

mutual

/-- A component and all below it, each time they occur, after what they require. -/
def postorder : Component → List Component
  | ⟨name, fields, requires⟩ => postorderAll requires ++ [⟨name, fields, requires⟩]
termination_by structural c => c

def postorderAll : List Component → List Component
  | [] => []
  | c :: cs => c.postorder ++ postorderAll cs
termination_by structural cs => cs

end

/-- The first component of each name, without those whose names are known. -/
def firsts (known : List String) : List Component → List Component
  | [] => []
  | c :: cs => if c.name ∈ known then firsts known cs else c :: firsts (c.name :: known) cs

/-- One component requires another, directly or by way of others. -/
def Needs : Component → Component → Prop := Relation.TransGen fun c d => d ∈ c.requires

/-- Components of one name are the same. -/
def Consistent (cs : List Component) : Prop := ∀ c ∈ cs, ∀ d ∈ cs, c.name = d.name → c = d

variable {c d : Component} {cs : List Component} {known : List String}

theorem postorder_eq (c : Component) : c.postorder = postorderAll c.requires ++ [c] := by
  obtain ⟨name, fields, requires⟩ := c
  rw [postorder]

theorem mem_postorder_self (c : Component) : c ∈ c.postorder := by
  simp [postorder_eq]

theorem mem_postorderAll : d ∈ postorderAll cs ↔ ∃ c ∈ cs, d ∈ c.postorder := by
  induction cs with
  | nil => simp [postorderAll]
  | cons c cs ih => simp [postorderAll, ih]

mutual

/-- What is below a part of a component is below it too, and came before that part. -/
theorem postorder_split : ∀ (c : Component) {before after : List Component} {d : Component},
    c.postorder = before ++ d :: after → ∀ e ∈ postorderAll d.requires, e ∈ before
  | ⟨name, fields, requires⟩, before, after, d, h, e, he => by
    rw [postorder, List.append_eq_append_iff] at h
    rcases h with ⟨rest, rfl, hrest⟩ | ⟨rest, hall, hrest⟩
    · -- the split is at the component itself
      cases rest with
      | nil =>
        cases hrest
        simpa using he
      | cons a rest => simp at hrest
    · cases rest with
      | nil =>
        cases hrest
        simpa [hall] using he
      | cons a rest =>
        cases hrest
        exact postorderAll_split requires hall e he
termination_by structural c => c

theorem postorderAll_split : ∀ (cs : List Component) {before after : List Component} {d : Component},
    postorderAll cs = before ++ d :: after → ∀ e ∈ postorderAll d.requires, e ∈ before
  | [], before, after, d, h, e, he => by
    simp [postorderAll] at h
  | c :: cs, before, after, d, h, e, he => by
    rw [postorderAll, List.append_eq_append_iff] at h
    rcases h with ⟨rest, rfl, hrest⟩ | ⟨rest, hall, hrest⟩
    · exact List.mem_append_right _ (postorderAll_split cs hrest e he)
    · cases rest with
      | nil =>
        have hcs : postorderAll cs = [] ++ d :: after := hrest.symm
        cases postorderAll_split cs hcs e he
      | cons a rest =>
        cases hrest
        exact postorder_split c hall e he
termination_by structural cs => cs

end

theorem postorder_trans (h : d ∈ c.postorder) {e : Component} (he : e ∈ d.postorder) : e ∈ c.postorder := by
  obtain ⟨before, after, hsplit⟩ := List.append_of_mem h
  rw [postorder_eq, List.mem_append, List.mem_singleton] at he
  rcases he with he | rfl
  · rw [hsplit]
    exact List.mem_append_left _ (postorder_split c hsplit e he)
  · exact h

theorem Needs.mem_postorderAll (h : c.Needs d) : d ∈ postorderAll c.requires := by
  induction h with
  | single h => exact Component.mem_postorderAll.2 ⟨_, h, mem_postorder_self _⟩
  | @tail d e _ he ih =>
    obtain ⟨k, hk, hd⟩ := Component.mem_postorderAll.1 ih
    have hbelow : e ∈ d.postorder := by
      rw [postorder_eq]
      exact List.mem_append_left _ (Component.mem_postorderAll.2 ⟨e, he, mem_postorder_self e⟩)
    exact Component.mem_postorderAll.2 ⟨k, hk, postorder_trans hd hbelow⟩

mutual

theorem sizeOf_le_of_mem_postorder : ∀ (c : Component) {d : Component}, d ∈ c.postorder → sizeOf d ≤ sizeOf c
  | ⟨name, fields, requires⟩, d, h => by
    rw [postorder, List.mem_append, List.mem_singleton] at h
    rcases h with h | rfl
    · have hlt := sizeOf_lt_of_mem_postorderAll requires h
      simp only [mk.sizeOf_spec]
      omega
    · exact Nat.le_refl _
termination_by structural c => c

theorem sizeOf_lt_of_mem_postorderAll : ∀ (cs : List Component) {d : Component}, d ∈ postorderAll cs →
    sizeOf d < sizeOf cs
  | [], d, h => by simp [postorderAll] at h
  | c :: cs, d, h => by
    rw [postorderAll, List.mem_append] at h
    rw [List.cons.sizeOf_spec]
    rcases h with h | h
    · have hle := sizeOf_le_of_mem_postorder c h
      omega
    · have hlt := sizeOf_lt_of_mem_postorderAll cs h
      omega
termination_by structural cs => cs

end

/-- No component is part of itself. -/
theorem not_mem_postorderAll_requires (c : Component) : c ∉ postorderAll c.requires := by
  intro h
  have hlt := sizeOf_lt_of_mem_postorderAll _ h
  obtain ⟨name, fields, requires⟩ := c
  simp only [mk.sizeOf_spec] at hlt
  omega

/-! ## First occurrences -/

theorem firsts_of_known (h : ∀ c ∈ cs, c.name ∈ known) : firsts known cs = [] := by
  induction cs with
  | nil => rfl
  | cons c cs ih =>
    rw [firsts, if_pos (h c (by simp))]
    exact ih fun d hd => h d (by simp [hd])

theorem firsts_congr {known' : List String} (h : ∀ x, x ∈ known ↔ x ∈ known') (cs : List Component) :
    firsts known cs = firsts known' cs := by
  induction cs generalizing known known' with
  | nil => rfl
  | cons c cs ih =>
    have hnext : ∀ x, x ∈ c.name :: known ↔ x ∈ c.name :: known' := by simp [h]
    by_cases hc : c.name ∈ known
    · rw [firsts, firsts, if_pos hc, if_pos ((h _).1 hc), ih h]
    · rw [firsts, firsts, if_neg hc, if_neg fun hc' => hc ((h _).2 hc'), ih hnext]

theorem firsts_append (known : List String) (as bs : List Component) :
    firsts known (as ++ bs) = firsts known as ++ firsts (known ++ (firsts known as).map (·.name)) bs := by
  induction as generalizing known with
  | nil => simp [firsts]
  | cons a as ih =>
    rw [List.cons_append, firsts, firsts]
    by_cases ha : a.name ∈ known
    · rw [if_pos ha, if_pos ha, ih]
    · rw [if_neg ha, if_neg ha, ih, List.cons_append]
      congr 2
      refine firsts_congr (fun x => ?_) bs
      simp only [List.map_cons, List.mem_append, List.mem_cons]
      exact or_left_comm

theorem firsts_subset : firsts known cs ⊆ cs := by
  induction cs generalizing known with
  | nil => simp [firsts]
  | cons c cs ih =>
    rw [firsts]
    split
    · exact List.subset_cons_of_subset c ih
    · exact List.cons_subset_cons c ih

theorem mem_firsts (h : c ∈ cs) : c.name ∈ known ∨ c.name ∈ (firsts known cs).map (·.name) := by
  induction cs generalizing known with
  | nil => cases h
  | cons d cs ih =>
    rw [firsts]
    by_cases hd : d.name ∈ known
    · rw [if_pos hd]
      rcases List.mem_cons.1 h with rfl | h
      · exact .inl hd
      · exact ih h
    · rw [if_neg hd, List.map_cons, List.mem_cons]
      rcases List.mem_cons.1 h with rfl | h
      · exact .inr (.inl rfl)
      · have hrest : c.name ∈ d.name :: known ∨ c.name ∈ (firsts (d.name :: known) cs).map (·.name) := ih h
        rwa [List.mem_cons, or_assoc, or_left_comm] at hrest

/-- What stood before a component that is kept has its names before it. -/
theorem firsts_split {before after : List Component} (h : firsts known cs = before ++ d :: after) :
    ∃ before' after', cs = before' ++ d :: after' ∧
      ∀ c ∈ before', c.name ∈ known ∨ c.name ∈ before.map (·.name) := by
  induction cs generalizing known before with
  | nil => simp [firsts] at h
  | cons c cs ih =>
    rw [firsts] at h
    by_cases hc : c.name ∈ known
    · rw [if_pos hc] at h
      obtain ⟨before', after', rfl, hbefore⟩ := ih h
      exact ⟨c :: before', after', rfl, List.forall_mem_cons.2 ⟨.inl hc, hbefore⟩⟩
    · rw [if_neg hc] at h
      cases before with
      | nil =>
        cases h
        exact ⟨[], cs, rfl, by simp⟩
      | cons b before =>
        rw [List.cons_append] at h
        obtain ⟨rfl, hrest⟩ := List.cons.inj h
        obtain ⟨before', after', rfl, hbefore⟩ := ih hrest
        refine ⟨c :: before', after', rfl, List.forall_mem_cons.2 ⟨.inr (by simp), fun e he => ?_⟩⟩
        have hname := hbefore e he
        rwa [List.mem_cons, or_assoc, or_left_comm, ← List.mem_cons] at hname

/-! ## Traversals -/

mutual

/-- What a visit finishes has names that were not met before, each once, and they are met then. -/
theorem visit_adds : ∀ (c : Component) (t : Traversal), ∃ new, (visit t c).done = t.done ++ new ∧
    (new.map (·.name)).Nodup ∧ (∀ d ∈ new, d.name ∉ t.met ∧ d.name ∈ (visit t c).met) ∧ t.met ⊆ (visit t c).met
  | ⟨name, fields, requires⟩, t => by
    obtain ⟨new, hdone, hnodup, hnew, hmet⟩ := visitAll_adds requires { t with met := name :: t.met }
    by_cases hname : name ∈ t.met
    · rw [visit, if_pos hname]
      exact ⟨[], by simp, .nil, nofun, fun _ => id⟩
    · rw [visit, if_neg hname]
      refine ⟨new ++ [⟨name, fields, requires⟩], by simp [hdone], ?_, ?_, fun x hx => hmet (by simp [hx])⟩
      · rw [List.map_append, List.nodup_append]
        refine ⟨hnodup, by simp, fun x hx y hy hxy => ?_⟩
        obtain ⟨d, hd, rfl⟩ := List.mem_map.1 hx
        have hfresh := (hnew d hd).1
        simp only [List.map_cons, List.map_nil, List.mem_singleton] at hy
        simp [hxy, hy] at hfresh
      · intro d hd
        rcases List.mem_append.1 hd with hd | hd
        · obtain ⟨hfresh, hlater⟩ := hnew d hd
          exact ⟨fun hold => hfresh (by simp [hold]), hlater⟩
        · rw [List.mem_singleton.1 hd]
          exact ⟨hname, hmet (by simp)⟩
termination_by structural c => c

theorem visitAll_adds : ∀ (cs : List Component) (t : Traversal), ∃ new, (visitAll t cs).done = t.done ++ new ∧
    (new.map (·.name)).Nodup ∧ (∀ d ∈ new, d.name ∉ t.met ∧ d.name ∈ (visitAll t cs).met) ∧
    t.met ⊆ (visitAll t cs).met
  | [], t => by
    rw [visitAll]
    exact ⟨[], by simp, .nil, nofun, fun _ => id⟩
  | c :: cs, t => by
    obtain ⟨new, hdone, hnodup, hnew, hmet⟩ := visit_adds c t
    obtain ⟨new', hdone', hnodup', hnew', hmet'⟩ := visitAll_adds cs (visit t c)
    rw [visitAll]
    refine ⟨new ++ new', by rw [hdone', hdone, List.append_assoc], ?_, ?_, fun x hx => hmet' (hmet hx)⟩
    · rw [List.map_append, List.nodup_append]
      refine ⟨hnodup, hnodup', fun x hx y hy hxy => ?_⟩
      obtain ⟨d, hd, rfl⟩ := List.mem_map.1 hx
      obtain ⟨e, he, rfl⟩ := List.mem_map.1 hy
      exact (hnew' e he).1 (hxy ▸ (hnew d hd).2)
    · intro d hd
      rcases List.mem_append.1 hd with hd | hd
      · exact ⟨(hnew d hd).1, hmet' (hnew d hd).2⟩
      · exact ⟨fun hold => (hnew' d hd).1 (hmet hold), (hnew' d hd).2⟩
termination_by structural cs => cs

end

/-- On the way through components of which no two share a name: what was met is finished or
still being visited, and what is finished has all below it finished. -/
structure Traversal.Sound (all : List Component) (visiting : List String) (t : Traversal) : Prop where
  met : ∀ x, x ∈ t.met ↔ x ∈ visiting ∨ x ∈ t.done.map (·.name)
  known : t.done ⊆ all
  closed : ∀ c ∈ t.done, ∀ d ∈ c.postorder, d.name ∈ t.done.map (·.name)

/-- Everything below some components is finished, as far as it was not. -/
theorem Traversal.Sound.finish {all : List Component} {visiting : List String} {t u : Traversal}
    (h : t.Sound all visiting) (hcs : cs ⊆ all) (hclosed : ∀ c ∈ cs, c.postorder ⊆ cs)
    (hdone : u.done = t.done ++ firsts (t.done.map (·.name)) cs)
    (hmet : ∀ x, x ∈ u.met ↔ x ∈ visiting ∨ x ∈ u.done.map (·.name)) : u.Sound all visiting where
  met := hmet
  known := by
    rw [hdone]
    exact List.append_subset.2 ⟨h.known, fun c hc => hcs (firsts_subset hc)⟩
  closed c hc d hd := by
    rw [hdone, List.map_append, List.mem_append]
    rw [hdone] at hc
    rcases List.mem_append.1 hc with hc | hc
    · exact .inl (h.closed c hc d hd)
    · exact mem_firsts (hclosed c (firsts_subset hc) hd)

variable {all : List Component}

mutual

/-- **A visit finishes what it would without turning back**, the first of each name. -/
theorem visit_sound (hall : Consistent all) : ∀ (c : Component) {t : Traversal} {visiting : List String},
    t.Sound all visiting → c.postorder ⊆ all → (∀ d ∈ c.postorder, d.name ∉ visiting) →
    (visit t c).done = t.done ++ firsts (t.done.map (·.name)) c.postorder ∧ (visit t c).Sound all visiting
  | ⟨name, fields, requires⟩, t, visiting, ht, hc, hout => by
    have hself : ⟨name, fields, requires⟩ ∈ postorder ⟨name, fields, requires⟩ := mem_postorder_self _
    by_cases hname : name ∈ t.met
    · -- the name is that of a finished component, so of this one, and all below is finished
      rw [visit, if_pos hname]
      have hdone : name ∈ t.done.map (·.name) := ((ht.met name).1 hname).resolve_left (hout _ hself)
      obtain ⟨d, hd, hdname⟩ := List.mem_map.1 hdone
      have hsame : d = ⟨name, fields, requires⟩ := hall d (ht.known hd) _ (hc hself) hdname
      rw [firsts_of_known (hsame ▸ ht.closed d hd), List.append_nil]
      exact ⟨rfl, ht⟩
    · have hrequires : postorderAll requires ⊆ all := by
        intro d hd
        exact hc (by rw [postorder]; exact List.mem_append_left _ hd)
      have hother : ∀ d ∈ postorderAll requires, d.name ≠ name := by
        intro d hd hdname
        have hsame := hall d (hrequires hd) _ (hc hself) hdname
        rw [hsame] at hd
        exact not_mem_postorderAll_requires _ hd
      have hstart : Traversal.Sound all (name :: visiting) { t with met := name :: t.met } :=
        ⟨fun x => by simp [ht.met, or_assoc], ht.known, ht.closed⟩
      obtain ⟨hinner, hsound⟩ := visitAll_sound hall requires hstart hrequires fun d hd => by
        have hnot := hout d (by rw [postorder]; exact List.mem_append_left _ hd)
        simp [hother d hd, hnot]
      have hnew : name ∉ t.done.map (·.name) ++ (firsts (t.done.map (·.name)) (postorderAll requires)).map (·.name) := by
        rw [List.mem_append, not_or]
        refine ⟨fun hold => hname ((ht.met name).2 (.inr hold)), fun hold => ?_⟩
        obtain ⟨d, hd, hdname⟩ := List.mem_map.1 hold
        exact hother d (firsts_subset hd) hdname
      have hdone : (visit t ⟨name, fields, requires⟩).done =
          t.done ++ firsts (t.done.map (·.name)) (postorder ⟨name, fields, requires⟩) := by
        rw [visit, if_neg hname, postorder, firsts_append, firsts, if_neg hnew, firsts, ← List.append_assoc]
        exact congrArg (· ++ _) hinner
      refine ⟨hdone, ht.finish hc (fun d hd e he => postorder_trans hd he) hdone fun x => ?_⟩
      rw [visit, if_neg hname]
      simp only [hsound.met, List.map_append, List.mem_append, List.mem_cons, List.map_cons, List.map_nil,
        List.not_mem_nil, or_false]
      rw [or_assoc, or_left_comm, or_comm (a := x = name)]
termination_by structural c => c

theorem visitAll_sound (hall : Consistent all) : ∀ (cs : List Component) {t : Traversal} {visiting : List String},
    t.Sound all visiting → postorderAll cs ⊆ all → (∀ d ∈ postorderAll cs, d.name ∉ visiting) →
    (visitAll t cs).done = t.done ++ firsts (t.done.map (·.name)) (postorderAll cs) ∧
      (visitAll t cs).Sound all visiting
  | [], t, visiting, ht, _, _ => by
    rw [visitAll, postorderAll, firsts, List.append_nil]
    exact ⟨rfl, ht⟩
  | c :: cs, t, visiting, ht, hc, hout => by
    rw [postorderAll] at hc hout
    obtain ⟨hfirst, hrest⟩ := List.append_subset.1 hc
    obtain ⟨hdone, ht'⟩ := visit_sound hall c ht hfirst fun d hd => hout d (List.mem_append_left _ hd)
    obtain ⟨hdone', ht''⟩ := visitAll_sound hall cs ht' hrest fun d hd => hout d (List.mem_append_right _ hd)
    rw [visitAll, postorderAll]
    refine ⟨?_, ht''⟩
    rw [hdone', hdone, firsts_append, List.map_append, List.append_assoc]
termination_by structural cs => cs

end

/-! ## The order of a tree -/

theorem order_eq (root : Component) :
    root.order = (visitAll ⟨[root.name], []⟩ root.requires).done ++ [root] := by
  obtain ⟨name, fields, requires⟩ := root
  rw [order, visit, if_neg (List.not_mem_nil)]

theorem order_nodup (root : Component) : (root.order.map (·.name)).Nodup := by
  obtain ⟨new, hdone, hnodup, -⟩ := visit_adds root ⟨[], []⟩
  rw [order, hdone]
  exact hnodup

theorem order_eq_firsts {root : Component} (h : Consistent root.postorder) :
    root.order = firsts [] root.postorder := by
  have hempty : Traversal.Sound root.postorder [] ⟨[], []⟩ := ⟨by simp, by simp, by simp⟩
  obtain ⟨hdone, -⟩ := visit_sound h root hempty (fun _ => id) (by simp)
  exact hdone

/-- A component is linked after all that it needs. -/
theorem needs_mem_before {root : Component} (h : Consistent root.postorder) {before after : List Component}
    (horder : root.order = before ++ c :: after) (hneeds : c.Needs d) : d ∈ before := by
  rw [order_eq_firsts h] at horder
  obtain ⟨before', after', hpost, hbefore⟩ := firsts_split horder
  have hd : d ∈ before' := postorder_split root hpost d hneeds.mem_postorderAll
  obtain ⟨e, he, hname⟩ := List.mem_map.1 ((hbefore d hd).resolve_left List.not_mem_nil)
  have hkept : e ∈ firsts [] root.postorder := by
    rw [horder]
    exact List.mem_append_left _ he
  rwa [h e (firsts_subset hkept) d (by rw [hpost]; exact List.mem_append_left _ hd) hname] at he

/-- **Components are linked in the order of a walk through the tree**, each name once, and the root
last. Where a name stands for one component only, nothing is lost by that: every name of the tree is
there, and every component comes after all that it needs. -/
theorem order_dependencies_first (root : Component) :
    (root.order.map (·.name)).Nodup ∧ root.order.getLast? = some root ∧
      (Consistent root.postorder →
        root.order = firsts [] root.postorder ∧
        (∀ c ∈ root.postorder, (root.order.map (·.name)).count c.name = 1) ∧
        ∀ before c after, root.order = before ++ c :: after → ∀ d, c.Needs d → d ∈ before) := by
  refine ⟨order_nodup root, by rw [order_eq]; simp, fun h => ?_⟩
  refine ⟨order_eq_firsts h, fun c hc => ?_, fun before c after horder d hd => needs_mem_before h horder hd⟩
  have hmem : c.name ∈ root.order.map (·.name) := by
    rw [order_eq_firsts h]
    exact (mem_firsts hc).resolve_left List.not_mem_nil
  exact List.count_eq_one_of_mem (order_nodup root) hmem

/-- Matching needs pairs by way of lists and by way of environments, and they are linked once. -/
theorem order_dependencies_first_matcher :
    Consistent (Library.matcher 1).postorder ∧
      (Library.matcher 1).postorder.map (·.name) =
        ["allocator", "tuple", "list", "allocator", "tuple", "environment", "matcher"] ∧
      (Library.matcher 1).order.map (·.name) = ["allocator", "tuple", "list", "environment", "matcher"] ∧
      ∀ before c after, (Library.matcher 1).order = before ++ c :: after → ∀ d, c.Needs d → d ∈ before := by
  let byName : String → Component
    | "allocator" => Library.allocator 1
    | "tuple" => Library.tuple 1
    | "list" => Library.list 1
    | "environment" => Library.environment 1
    | _ => Library.matcher 1
  have hname : ∀ c ∈ (Library.matcher 1).postorder, c = byName c.name := by
    change ∀ c ∈ [Library.allocator 1, Library.tuple 1, Library.list 1, Library.allocator 1, Library.tuple 1,
      Library.environment 1, Library.matcher 1], c = byName c.name
    simp only [List.forall_mem_cons]
    exact ⟨rfl, rfl, rfl, rfl, rfl, rfl, rfl, nofun⟩
  have hcons : Consistent (Library.matcher 1).postorder := by
    intro c hc d hd h
    rw [hname c hc, hname d hd, h]
  obtain ⟨-, -, h⟩ := order_dependencies_first (Library.matcher 1)
  obtain ⟨-, -, hneeds⟩ := h hcons
  exact ⟨hcons, by decide, by decide, hneeds⟩

end WasmBackend.Component
