/-
Spans tell the parts of a tree apart (`built_spans_distinct`). Trees and
patterns are built by calls, in any order; a call uses up parts that were built
before, and every node and pattern that it makes gets the next free offset. So
the parts that are there at any time share out among them all offsets handed
out so far, each to one node or pattern.

`Session` is a run of such calls. Building a sketch is one (`Session.build`).
-/
import WasmBackend.Tree.Sketch

namespace WasmBackend

/-! ## Spans of a tree -/

/-- The spans of all parts of a pattern. -/
def Pattern.spans : Pattern → List Span
  | wildcard s => [s]
  | nil s => [s]
  | ident s _ => [s]
  | cons s head tail => s :: (head.spans ++ tail.spans)

namespace Node

mutual

/-- The spans of all nodes and patterns of a tree. -/
def spans : Node → List Span
  | lit s _ => [s]
  | ident s _ => [s]
  | unary s _ operand => s :: operand.spans
  | binary s _ left right => s :: (left.spans ++ right.spans)
  | cond s test yes no => s :: (test.spans ++ (yes.spans ++ no.spans))
  | letIn s _ value body => s :: (value.spans ++ body.spans)
  | letRec s _ value body => s :: (value.spans ++ body.spans)
  | lambda s _ body => s :: body.spans
  | app s fn arg => s :: (fn.spans ++ arg.spans)
  | cons s head tail => s :: (head.spans ++ tail.spans)
  | cases s scrutinee arms => s :: (scrutinee.spans ++ spansIn arms)
termination_by structural node => node

def spansIn : List (Pattern × Node) → List Span
  | [] => []
  | (pattern, body) :: rest => pattern.spans ++ (body.spans ++ spansIn rest)
termination_by structural arms => arms

end

end Node

namespace Sketch

/-! ## Calls -/

/-- Something that was built. -/
inductive Part where
  | node (node : Node)
  | pattern (pattern : Pattern)

def Part.spans : Part → List Span
  | node n => n.spans
  | pattern p => p.spans

/-- What can be built from parts that are there. -/
inductive Call where
  | lit (value : Literal)
  | ident (name : String)
  | unary (op : UnaryOp) (operand : Node)
  | binary (op : BinaryOp) (left right : Node)
  | cond (test yes no : Node)
  | letIn (name : String) (value body : Node)
  | letRec (name : String) (value body : Node)
  | lambda (param : String) (body : Node)
  | apply (fn : Node) (args : List Node)
  | cons (head tail : Node)
  | list (items : List Node)
  | cases (scrutinee : Node) (arms : List (Pattern × Node))
  | matchAny
  | matchNil
  | matchIdent (name : String)
  | matchCons (head tail : Pattern)

namespace Call

/-- The parts that are used up. -/
def takes : Call → List Part
  | lit _ | ident _ | matchAny | matchNil | matchIdent _ => []
  | unary _ operand => [.node operand]
  | binary _ left right => [.node left, .node right]
  | cond test yes no => [.node test, .node yes, .node no]
  | letIn _ value body | letRec _ value body => [.node value, .node body]
  | lambda _ body => [.node body]
  | apply fn args => .node fn :: args.map .node
  | cons head tail => [.node head, .node tail]
  | list items => items.map .node
  | cases scrutinee arms => .node scrutinee :: arms.flatMap fun arm => [.pattern arm.1, .node arm.2]
  | matchCons head tail => [.pattern head, .pattern tail]

def run (source : Source) : Call → Build Part
  | lit value => return .node (.lit (← fresh source) value)
  | ident name => return .node (.ident (← fresh source) name)
  | unary op operand => return .node (.unary (← fresh source) op operand)
  | binary op left right => return .node (.binary (← fresh source) op left right)
  | cond test yes no => return .node (.cond (← fresh source) test yes no)
  | letIn name value body => return .node (.letIn (← fresh source) name value body)
  | letRec name value body => return .node (.letRec (← fresh source) name value body)
  | lambda param body => return .node (.lambda (← fresh source) param body)
  | apply fn args => return .node (← applyAll source fn args)
  | cons head tail => return .node (.cons (← fresh source) head tail)
  | list items => do
    let empty := Node.lit (← fresh source) .nil
    return .node (← consAll source items empty)
  | cases scrutinee arms => return .node (.cases (← fresh source) scrutinee arms)
  | matchAny => return .pattern (.wildcard (← fresh source))
  | matchNil => return .pattern (.nil (← fresh source))
  | matchIdent name => return .pattern (.ident (← fresh source) name)
  | matchCons head tail => return .pattern (.cons (← fresh source) head tail)

end Call

/-- Calls one after the other, and the parts that are there then, in any order. Types may be recorded
on the way. -/
inductive Session (source : Source) : List Part → Progress → Prop
  | start : Session source [] ⟨0, .empty⟩
  | call {rest : List Part} {p : Progress} (c : Call) : Session source (c.takes ++ rest) p →
      Session source ((c.run source p).1 :: rest) (c.run source p).2
  | reorder {parts parts' : List Part} {p : Progress} : Session source parts p → parts.Perm parts' →
      Session source parts' p
  | record {parts : List Part} {p : Progress} (span : Span) (ty : Ty) : Session source parts p →
      Session source parts { p with types := p.types.insert span ty }

variable {source : Source}

/-! ## Offsets -/

/-- The spans that are handed out from an offset on. -/
def handed (source : Source) (start count : Nat) : List Span :=
  (List.range' start count).map fun offset => ⟨source, offset, 1⟩

theorem handed_append (start a b : Nat) :
    handed source start (a + b) = handed source start a ++ handed source (start + a) b := by
  simp [handed, ← List.range'_append_1]

theorem offsets_handed (start count : Nat) : (handed source start count).map (·.offset) = List.range' start count := by
  simp [handed, Function.comp_def]

section Hands

variable {α β : Type} {x : Build α} {spans : α → List Span} {spans' : β → List Span} {used used' more : List Span}

/-- What is built has the spans that were used up for it, and those that were handed out meanwhile. -/
def Hands (source : Source) (x : Build α) (spans : α → List Span) (used : List Span) : Prop :=
  ∀ p, ∃ count, (x p).2 = { p with next := p.next + count } ∧
    (spans (x p).1).Perm (used ++ handed source p.next count)

theorem Hands.perm (h : Hands source x spans used) (hused : used.Perm used') : Hands source x spans used' := by
  intro p
  obtain ⟨count, hnext, hspans⟩ := h p
  exact ⟨count, hnext, hspans.trans (hused.append_right _)⟩

theorem Hands.pure (a : α) : Hands source (Pure.pure a) spans (spans a) :=
  fun p => ⟨0, rfl, by rw [handed, List.range'_zero, List.map_nil, List.append_nil]; rfl⟩

theorem Hands.fresh : Hands source (fresh source) (fun s => [s]) [] :=
  fun _ => ⟨1, rfl, .refl _⟩

/-- What is built first is used up by what is built next. -/
theorem Hands.bind {f : α → Build β} (hx : Hands source x spans used)
    (hf : ∀ a, Hands source (f a) spans' (spans a ++ more)) : Hands source (x >>= f) spans' (used ++ more) := by
  intro p
  obtain ⟨count, hnext, hspans⟩ := hx p
  have hbind : (x >>= f) p = f (x p).1 { p with next := p.next + count } := by
    rw [← hnext]
    rfl
  obtain ⟨count', hnext', hspans'⟩ := hf (x p).1 { p with next := p.next + count }
  refine ⟨count + count', ?_, ?_⟩
  · rw [hbind, hnext', Nat.add_assoc]
  · rw [hbind, handed_append]
    refine hspans'.trans (((hspans.append_right more).append_right _).trans ?_)
    simpa only [List.append_assoc] using (List.perm_append_comm_assoc _ _ _).append_left used

/-- One more node or pattern. -/
theorem Hands.make {make : Span → α} (h : ∀ s, spans (make s) = s :: used) :
    Hands source (do return make (← Sketch.fresh source)) spans used :=
  Hands.fresh.bind fun s => by
    rw [List.singleton_append, ← h]
    exact .pure (make s)

theorem Hands.map {g : α → β} (hx : Hands source x spans used) (hg : ∀ a, spans' (g a) = spans a) :
    Hands source (do return g (← x)) spans' used := by
  have hpure (a : α) : Hands source (Pure.pure (g a)) spans' (spans a ++ []) := by
    rw [List.append_nil, ← hg]
    exact .pure (g a)
  have hmap := hx.bind hpure
  rwa [List.append_nil] at hmap

end Hands

/-- An application for each argument. -/
theorem Hands.applyAll (args : List Node) (fn : Node) :
    Hands source (applyAll source fn args) Node.spans (fn.spans ++ args.flatMap Node.spans) := by
  induction args generalizing fn with
  | nil =>
    rw [List.flatMap_nil, List.append_nil]
    exact .pure fn
  | cons arg args ih =>
    refine Hands.fresh.bind fun s => (ih (.app s fn arg)).perm ?_
    simp [Node.spans]

/-- A cell for each item. -/
theorem Hands.consAll (items : List Node) (tail : Node) :
    Hands source (consAll source items tail) Node.spans (tail.spans ++ items.flatMap Node.spans) := by
  induction items with
  | nil =>
    rw [List.flatMap_nil, List.append_nil]
    exact .pure tail
  | cons item items ih =>
    have hcell (rest : Node) : Hands source (do return Node.cons (← Sketch.fresh source) item rest) Node.spans
        (rest.spans ++ item.spans) :=
      Hands.perm (.make fun _ => by rw [Node.spans]) List.perm_append_comm
    refine (ih.bind hcell).perm ?_
    rw [List.append_assoc, List.flatMap_cons]
    exact List.perm_append_comm.append_left _

theorem spansIn_eq (arms : List (Pattern × Node)) : Node.spansIn arms =
    (arms.flatMap fun arm => [.pattern arm.1, .node arm.2]).flatMap Part.spans := by
  induction arms with
  | nil => rfl
  | cons arm arms ih =>
    rw [Node.spansIn, ih]
    simp [Part.spans]

/-- **One call**: the part it gives has the spans of the parts it takes, and new ones. -/
theorem Call.hands (source : Source) (c : Call) : Hands source (c.run source) Part.spans (c.takes.flatMap Part.spans) := by
  cases c with
  | apply fn args =>
    rw [takes, List.flatMap_cons, List.flatMap_map]
    exact (Hands.applyAll args fn).map fun _ => rfl
  | list items =>
    have hcells (s : Span) : Hands source (do return Part.node (← consAll source items (.lit s .nil))) Part.spans
        ([s] ++ items.flatMap Node.spans) :=
      (Hands.consAll items (.lit s .nil)).map fun _ => rfl
    rw [takes, List.flatMap_map]
    exact Hands.fresh.bind hcells
  | cases scrutinee arms =>
    refine .make fun s => ?_
    rw [Part.spans, Node.spans, takes, List.flatMap_cons, spansIn_eq]
    rfl
  | _ => exact .make fun s => by simp [Part.spans, takes, Node.spans, Pattern.spans]

variable {p : Progress} {parts : List Part}

/-- **A whole session**: the parts share out among them all spans handed out so far. -/
theorem Session.spans (h : Session source parts p) : (parts.flatMap Part.spans).Perm (handed source 0 p.next) := by
  induction h with
  | start => exact .refl _
  | @call rest p c _ ih =>
    obtain ⟨count, hnext, hspans⟩ := c.hands source p
    rw [List.flatMap_append] at ih
    rw [List.flatMap_cons, hnext, handed_append, Nat.zero_add]
    -- the new spans go behind those of the parts that are left
    have hmoved : (c.takes.flatMap Part.spans ++ handed source p.next count ++ rest.flatMap Part.spans).Perm
        (c.takes.flatMap Part.spans ++ rest.flatMap Part.spans ++ handed source p.next count) := by
      rw [List.append_assoc, List.append_assoc]
      exact List.perm_append_comm.append_left _
    exact ((hspans.append_right _).trans hmoved).trans (ih.append_right _)
  | reorder _ hperm ih => exact (hperm.flatMap_right _).symm.trans ih
  | record _ _ _ ih => exact ih

/-! ## Sketches -/

mutual

/-- No node of a sketch is moved once it is built. -/
def unmoved : Sketch → Bool
  | lit _ | ident _ => true
  | unary _ operand => operand.unmoved
  | binary _ left right => left.unmoved && right.unmoved
  | cond test yes no => test.unmoved && yes.unmoved && no.unmoved
  | letIn _ value body => value.unmoved && body.unmoved
  | letRec _ value body => value.unmoved && body.unmoved
  | lambda _ body => body.unmoved
  | apply fn args => fn.unmoved && unmovedAll args
  | cons head tail => head.unmoved && tail.unmoved
  | list items => unmovedAll items
  | cases scrutinee arms => scrutinee.unmoved && unmovedArms arms
  | note place _ tree => place.isNone && tree.unmoved
termination_by structural s => s

def unmovedAll : List Sketch → Bool
  | [] => true
  | s :: rest => s.unmoved && unmovedAll rest
termination_by structural ss => ss

def unmovedArms : List (Shape × Sketch) → Bool
  | [] => true
  | (_, body) :: rest => body.unmoved && unmovedArms rest
termination_by structural arms => arms

end

namespace Session

/-- Parts are built in order, so that the last one is in front. -/
theorem inOrder (built : List Part) (h : Session source (built.reverse ++ parts) p) :
    Session source (built ++ parts) p :=
  h.reorder ((List.reverse_perm built).append_right parts)

theorem shape (h : Session source parts p) (s : Shape) :
    Session source (.pattern (s.build source p).1 :: parts) (s.build source p).2 := by
  induction s generalizing parts p with
  | wildcard => exact .call .matchAny h
  | nil => exact .call .matchNil h
  | ident name => exact .call (.matchIdent name) h
  | cons head tail ihhead ihtail =>
    have hparts := (ihtail (ihhead h)).inOrder [.pattern _, .pattern _]
    exact hparts.call (.matchCons _ _)

mutual

/-- **Building a sketch is a session.** -/
theorem build {parts : List Part} {p : Progress} (h : Session source parts p) (s : Sketch) (hs : s.unmoved = true) :
    Session source (.node (s.build source p).1 :: parts) (s.build source p).2 := by
  match s with
  | .lit value => exact .call (.lit value) h
  | .ident name => exact .call (.ident name) h
  | .unary op operand => exact (h.build operand hs).call (.unary op _)
  | .binary op left right =>
    rw [unmoved, Bool.and_eq_true] at hs
    exact (((h.build left hs.1).build right hs.2).inOrder [.node _, .node _]).call (.binary op _ _)
  | .cond test yes no =>
    rw [unmoved, Bool.and_eq_true, Bool.and_eq_true] at hs
    have hparts := ((h.build test hs.1.1).build yes hs.1.2).build no hs.2
    exact (hparts.inOrder [.node _, .node _, .node _]).call (.cond _ _ _)
  | .letIn name value body =>
    rw [unmoved, Bool.and_eq_true] at hs
    exact (((h.build value hs.1).build body hs.2).inOrder [.node _, .node _]).call (.letIn name _ _)
  | .letRec name value body =>
    rw [unmoved, Bool.and_eq_true] at hs
    exact (((h.build value hs.1).build body hs.2).inOrder [.node _, .node _]).call (.letRec name _ _)
  | .lambda param body => exact (h.build body hs).call (.lambda param _)
  | .apply fn args =>
    rw [unmoved, Bool.and_eq_true] at hs
    have hparts := (h.build fn hs.1).buildAll args hs.2
    exact (hparts.reorder List.perm_middle).call (.apply _ _)
  | .cons head tail =>
    rw [unmoved, Bool.and_eq_true] at hs
    exact (((h.build head hs.1).build tail hs.2).inOrder [.node _, .node _]).call (.cons _ _)
  | .list items => exact (h.buildAll items hs).call (.list _)
  | .cases scrutinee arms =>
    rw [unmoved, Bool.and_eq_true] at hs
    have hparts := (h.build scrutinee hs.1).buildArms arms hs.2
    exact (hparts.reorder List.perm_middle).call (.cases _ _)
  | .note place ty tree =>
    rw [unmoved, Bool.and_eq_true, Option.isNone_iff_eq_none] at hs
    obtain ⟨rfl, htree⟩ := hs
    cases ty with
    | none => exact h.build tree htree
    | some t => exact (h.build tree htree).record _ t
termination_by structural s

theorem buildAll {parts : List Part} {p : Progress} (h : Session source parts p) (ss : List Sketch)
    (hs : unmovedAll ss = true) :
    Session source ((Sketch.buildAll source ss p).1.map .node ++ parts) (Sketch.buildAll source ss p).2 := by
  match ss with
  | [] => exact h
  | s :: rest =>
    rw [unmovedAll, Bool.and_eq_true] at hs
    exact ((h.build s hs.1).buildAll rest hs.2).reorder List.perm_middle
termination_by structural ss

theorem buildArms {parts : List Part} {p : Progress} (h : Session source parts p) (arms : List (Shape × Sketch))
    (hs : unmovedArms arms = true) :
    Session source
      (((Sketch.buildArms source arms p).1.flatMap fun arm => [.pattern arm.1, .node arm.2]) ++ parts)
      (Sketch.buildArms source arms p).2 := by
  match arms with
  | [] => exact h
  | (shape, body) :: rest =>
    rw [unmovedArms, Bool.and_eq_true] at hs
    have hparts := (((h.shape shape).build body hs.1).inOrder [.pattern _, .node _]).buildArms rest hs.2
    exact hparts.reorder (List.perm_append_comm_assoc _ _ _)
termination_by structural arms

end

end Session

end Sketch

/-! ## Types -/

theorem Span.same_self (s : Span) : s.same s = true := by
  simp [same, Source.same, Path.same]

theorem Span.same_of_offset_ne {s t : Span} (h : s.offset ≠ t.offset) : s.same t = false := by
  simp [same, h]

/-- What is recorded for a span hides nothing that is recorded for others. -/
theorem TypeMap.get?_insert (types : TypeMap) (s t : Span) (ty : Ty) :
    (types.insert s ty).get? t = if s.same t = true then some ty else types.get? t := by
  by_cases h : s.same t = true <;> simp [get?, insert, h]

/-- **Spans tell the parts of a tree apart.** -/
theorem built_spans_distinct (source : Source) :
    (∀ sketch : Sketch, sketch.unmoved = true →
      Sketch.Session source [.node (sketch.build source ⟨0, .empty⟩).1] (sketch.build source ⟨0, .empty⟩).2) ∧
    ∀ parts p, Sketch.Session source parts p →
      let spans := parts.flatMap Sketch.Part.spans
      (spans.map (·.offset)).Perm (List.range (Sketch.fresh source p).1.offset) ∧
      (∀ s ∈ spans, s.length = 1) ∧
      spans.Pairwise (fun s t => s.same t = false) ∧
      ∀ (types : TypeMap) (ty : Ty) (i j : Nat) (s t : Span), spans[i]? = some s → spans[j]? = some t →
        (types.insert s ty).get? t = if i = j then some ty else types.get? t := by
  refine ⟨fun sketch h => .build .start sketch h, fun parts p h => ?_⟩
  intro spans
  have hhanded : spans.Perm (Sketch.handed source 0 p.next) := h.spans
  have hoffsets : (spans.map (·.offset)).Perm (List.range p.next) := by
    have hmap := hhanded.map (·.offset)
    rwa [Sketch.offsets_handed, ← List.range_eq_range'] at hmap
  have hnodup : (spans.map (·.offset)).Nodup := hoffsets.nodup_iff.2 List.nodup_range
  refine ⟨hoffsets, fun s hs => ?_, ?_, fun types ty i j s t hs ht => ?_⟩
  · obtain ⟨offset, -, rfl⟩ := List.mem_map.1 (hhanded.mem_iff.1 hs)
    rfl
  · exact (List.pairwise_map.1 hnodup).imp Span.same_of_offset_ne
  · rw [TypeMap.get?_insert]
    by_cases hij : i = j
    · subst hij
      cases hs.symm.trans ht
      rw [if_pos s.same_self, if_pos rfl]
    · have hne : s.offset ≠ t.offset := by
        intro heq
        have hlt : i < (spans.map (·.offset)).length := by
          rw [List.length_map]
          exact (List.getElem?_eq_some_iff.1 hs).1
        exact hij ((List.getElem?_inj hlt hnodup).1 (by simp only [List.getElem?_map, hs, ht, Option.map_some, heq]))
      rw [Span.same_of_offset_ne hne, if_neg Bool.false_ne_true, if_neg hij]

/-- A match on a list with an application in it. -/
def Sketch.headOf : Sketch :=
  .cases (.list [.apply (.ident "f") [.lit (.int 1), .lit (.bool true)], .note none (some .int) (.lit (.int 2))])
    [(.cons (.ident "x") .wildcard, .ident "x"), (.nil, .lit (.int 0))]

/-- Built in order it has sixteen spans, and two numbers built from right to left have theirs in that order. -/
theorem built_spans_distinct_headOf :
    let source : Source := ⟨"", Source.defaultPath⟩
    let built := Sketch.headOf.build source ⟨0, .empty⟩
    let right := Node.lit ⟨source, 0, 1⟩ (.int 1)
    let left := Node.lit ⟨source, 1, 1⟩ (.int 1)
    Sketch.headOf.unmoved = true ∧ (built.1.spans.map (·.offset)).Perm (List.range built.2.next) ∧
      built.2.next = 16 ∧
      Sketch.Session source [.node (.binary ⟨source, 2, 1⟩ (.int .sub) left right)] ⟨3, .empty⟩ ∧
      (TypeMap.empty.insert left.span .int).get? right.span = none := by
  intro source built right left
  obtain ⟨hsketch, hparts⟩ := built_spans_distinct source
  have hright : Sketch.Session source [.node right] ⟨1, .empty⟩ := .call (.lit (.int 1)) .start
  have hleft : Sketch.Session source [.node left, .node right] ⟨2, .empty⟩ := .call (.lit (.int 1)) hright
  have htree : Sketch.Session source [.node (.binary ⟨source, 2, 1⟩ (.int .sub) left right)] ⟨3, .empty⟩ :=
    hleft.call (.binary (.int .sub) left right)
  obtain ⟨hoffsets, -⟩ := hparts _ _ (hsketch Sketch.headOf rfl)
  obtain ⟨-, -, -, htypes⟩ := hparts _ _ htree
  rw [List.flatMap_singleton] at hoffsets
  exact ⟨rfl, hoffsets, by decide +kernel, htree, htypes .empty .int 1 2 left.span right.span rfl rfl⟩

end WasmBackend
