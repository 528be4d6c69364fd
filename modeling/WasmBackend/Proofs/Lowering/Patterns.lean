/-
What lowering a pattern makes, in any state (`Pattern.lower_eq`): one matcher
for each node of the pattern, children first, numbered on from those that were
made before. Only the matcher of a cell has a local.
-/
import WasmBackend.Proofs.Lowering.Nodes

namespace WasmBackend

open Library Definitions

namespace Pattern

/-- The nodes of a pattern in the order in which their matchers are made. -/
def postorder : Pattern → List Pattern
  | p@(wildcard _) => [p]
  | p@(nil _) => [p]
  | p@(ident _ _) => [p]
  | p@(cons _ head tail) => head.postorder ++ tail.postorder ++ [p]

/-- How many nodes there are below the pattern itself. -/
def descendants : Pattern → Nat
  | wildcard _ => 0
  | nil _ => 0
  | ident _ _ => 0
  | cons _ head tail => head.descendants + 1 + (tail.descendants + 1)

/-- The name of the pattern's own matcher, which is made last, if this many were made before. -/
def matcherName (made : Nat) (p : Pattern) : String := Family.matchers.name (made + p.descendants)

/-- The matchers of all nodes of a pattern. -/
def matchers (made : Nat) : Pattern → List Func
  | p@(wildcard _) => [matcherFunc (p.matcherName made) [] (Emit.matchBy Matchers.wildcard)]
  | p@(nil _) => [matcherFunc (p.matcherName made) [] (Emit.matchBy Matchers.emptyList)]
  | p@(ident _ _) => [matcherFunc (p.matcherName made) [] (Emit.matchBy Matchers.identifier)]
  | p@(cons _ head tail) =>
    head.matchers made ++ tail.matchers (made + (head.descendants + 1)) ++ [matcherFunc (p.matcherName made)
      [.word Emit.next] (Emit.matchCons (head.matcherName made) (tail.matcherName (made + (head.descendants + 1))))]

@[simp] theorem length_matchers (made : Nat) (p : Pattern) : (p.matchers made).length = p.descendants + 1 := by
  induction p generalizing made with
  | wildcard | nil | ident => rfl
  | cons _ head tail ihhead ihtail => simp [matchers, descendants, ihhead, ihtail, Nat.add_assoc]

theorem names_matchers (made : Nat) (p : Pattern) :
    (p.matchers made).map (·.name) = (List.range' made (p.descendants + 1)).map Family.matchers.name := by
  induction p generalizing made with
  | wildcard | nil | ident => rfl
  | cons _ head tail ihhead ihtail =>
    have hsplit : List.range' made (head.descendants + 1 + (tail.descendants + 1) + 1) =
        List.range' made (head.descendants + 1) ++ List.range' (made + (head.descendants + 1)) (tail.descendants + 1) ++
          [made + (head.descendants + 1 + (tail.descendants + 1))] := by
      rw [List.range'_concat, List.range'_append_1, Nat.one_mul]
    simp only [matchers, descendants, List.map_append, ihhead, ihtail, hsplit]
    rfl

end Pattern

/-- A feature that was requested is not requested again. -/
theorem State.use_use (s : State) (f : Feature) : (s.use f).use f = s.use f := by
  have hnone : f.needs.filter (· ∉ (s.use f).features) = [] := by
    rw [List.filter_eq_nil_iff]
    intro g hg
    by_cases h : g ∈ s.features <;> simp [State.use, h, hg]
  rw [State.use, hnone, List.append_nil]

/-- A state with more matchers. -/
def State.matching (s : State) (more : List Func) : State :=
  { s with matchers := { s.matchers with funcs := s.matchers.funcs ++ more } }

/-- **A pattern is lowered to the matchers of its nodes.** -/
theorem Pattern.lower_eq (p : Pattern) (s : State) : p.lower s =
    .ok (p.matcherName s.matchers.funcs.length) ((s.use .matcher).matching (p.matchers s.matchers.funcs.length)) := by
  induction p generalizing s with
  | wildcard | nil | ident => rfl
  | cons _ head tail ihhead ihtail =>
    -- the parts are lowered while the matcher of the cell is open, and find the feature requested
    let r := (s.use .matcher).begun
    have hr : r.use .matcher = r := congrArg State.begun (s.use_use .matcher)
    let heads := head.matchers s.matchers.funcs.length
    have hhead : head.lower r = .ok (head.matcherName s.matchers.funcs.length) (r.matching heads) := by
      rw [ihhead, hr]
      rfl
    have hlength : (r.matching heads).matchers.funcs.length = s.matchers.funcs.length + (head.descendants + 1) := by
      simp [State.matching, heads, r, State.begun, State.use, Definitions.enter]
    let tails := tail.matchers (s.matchers.funcs.length + (head.descendants + 1))
    have htail : tail.lower (r.matching heads) =
        .ok (tail.matcherName (s.matchers.funcs.length + (head.descendants + 1)))
          ((r.matching heads).matching tails) := by
      rw [ihtail, hlength, show (r.matching heads).use .matcher = r.matching heads from
        congrArg (State.matching · heads) hr]
    have hlength' : ((r.matching heads).matching tails).matchers.funcs.length =
        s.matchers.funcs.length + (head.descendants + 1 + (tail.descendants + 1)) := by
      rw [State.matching, List.length_append, hlength, length_matchers]
      omega
    show (do
      let h ← head.lower
      let t ← tail.lower
      Lower.declareInMatcher Emit.next
      Lower.leaveMatcher (Emit.matchCons h t) : Lower String) r = _
    rw [Lower.bind_apply, hhead]
    simp only
    rw [Lower.bind_apply, htail]
    simp only
    rw [Lower.bind_apply, Lower.declareInMatcher_apply rfl]
    simp only
    rw [Lower.leaveMatcher_apply rfl]
    simp only [State.matcherName, hlength']
    simp only [matchers, State.matching, List.append_assoc]
    rfl

end WasmBackend
