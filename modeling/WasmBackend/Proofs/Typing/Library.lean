/-
The types of the functions that compiled code calls, and that the library and
the comparator are typed with them.
-/
import WasmBackend.Proofs.Assembly.Linking
import WasmBackend.Proofs.Typing.Rules

namespace WasmBackend

open Library

/-- The signature of a function that is called by its name. Those that are not part of the library
are comparisons and matchers, from two words to one. -/
def Library.signature (name : String) : Signature :=
  (((Feature.all.flatMap Feature.funcs).find? (·.name = name)).map (·.signature)).getD ⟨[.i32, .i32], some .i32⟩

/-- What names stand for in the code of a tree, in which all locals are words. -/
def Context.compiled (memory : Bool) : Context where
  locals _ := some .i32
  globals _ := some true
  funcs name := some (Library.signature name)
  types _ := some ⟨[.i32], some .i32⟩
  tables _ := true
  memory := memory
  result := some .i32

/-! ## Signatures -/

theorem Feature.signature_eq {f : Feature} {fn : Func} (h : fn ∈ f.funcs) : Library.signature fn.name = fn.signature := by
  have hall : ∀ f ∈ Feature.all, ∀ fn ∈ f.funcs, Library.signature fn.name = fn.signature := by
    decide +kernel
  exact hall f (mem_all f) fn h

namespace Library

theorem signature_compare {x : String} (h : x ∈ Compare.names) : signature x = ⟨[.i32, .i32], some .i32⟩ := by
  have hall : ∀ x ∈ Compare.names, signature x = ⟨[.i32, .i32], some .i32⟩ := by
    decide +kernel
  exact hall x h

theorem signature_function (c : Comparison) : signature (Compare.function c) = ⟨[.i32, .i32], some .i32⟩ :=
  signature_compare (List.mem_append_left _ (List.mem_map_of_mem (by cases c <;> decide)))

theorem signature_matcher (k : Nat) :
    signature (Definitions.Family.matchers.name k) = ⟨[.i32, .i32], some .i32⟩ := by
  have hstem : ∀ fn ∈ Feature.all.flatMap Feature.funcs, ¬ "matcher_".toList <+: fn.name.toList := by
    decide +kernel
  have hnone : (Feature.all.flatMap Feature.funcs).find? (·.name = Definitions.Family.matchers.name k) = none := by
    refine List.find?_eq_none.2 fun fn hfn hname => hstem fn hfn ?_
    rw [of_decide_eq_true hname, Definitions.Family.name, String.toList_append]
    exact List.prefix_append _ _
  rw [signature, hnone]
  rfl

end Library

/-! ## Fixed functions -/

theorem Feature.typed_funcs {f : Feature} {fn : Func} (h : fn ∈ f.funcs) : fn.Typed (.compiled true) := by
  have hall : ∀ f ∈ Feature.all, ∀ fn ∈ f.funcs,
      Code.leads ((Context.compiled true).inside fn) fn.body [] fn.result.toList = true := by
    decide +kernel
  exact Code.typed_of_leads (hall f (mem_all f) fn h)

theorem Library.Compare.typed_funcs {r : CompareRequest} {fn : Func} (h : fn ∈ Compare.funcs r) (memory : Bool) :
    fn.Typed (.compiled memory) := by
  have hany : ∀ memory ∈ [false, true], ∀ c ∈ Comparison.all, ∀ floats ∈ [false, true], ∀ lists ∈ [false, true],
      let fn := Compare.anyFunc ⟨[], floats, lists⟩ c
      Code.leads ((Context.compiled memory).inside fn) fn.body [] fn.result.toList = true := by
    decide +kernel
  have hlist : ∀ memory ∈ [false, true], ∀ c ∈ Comparison.all,
      let fn := Compare.listFunc c
      Code.leads ((Context.compiled memory).inside fn) fn.body [] fn.result.toList = true := by
    decide +kernel
  have hmemory : memory ∈ [false, true] := by cases memory <;> decide
  have hc (c : Comparison) : c ∈ Comparison.all := by cases c <;> decide
  rcases Compare.mem_funcs.1 h with ⟨c, -, rfl⟩ | ⟨-, c, -, -, rfl⟩
  · exact Code.typed_of_leads (hany memory hmemory c (hc c) r.floats (by cases r.floats <;> decide) r.lists
      (by cases r.lists <;> decide))
  · exact Code.typed_of_leads (hlist memory hmemory c (hc c))

end WasmBackend
