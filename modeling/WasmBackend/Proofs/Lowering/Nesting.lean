/-
Functions that are made inside of each other keep their locals apart
(`nested_locals_apart`). Functions are entered, get locals and are left, in any
order in which a function is left only after it was entered. Then each one has
the locals that were declared between its own enter and its own leave, outside
of the functions inside of it, and has the number of functions left before it.

Which leave belongs to which enter is said by counting: `Act.depth?` is how
many functions are open. What one act does is said once (`Upheld.act`), and
acts are followed one after the other (`Upheld.run`).
-/
import WasmBackend.Proofs.Lowering.States

namespace WasmBackend

open Definitions (Family)

/-! ## Acts -/

/-- What is done to the functions that are being made. -/
inductive Act where
  | enter
  | declare (l : Local)
  | leave (body : Code)

namespace Act

/-- Does it. To leave a function gives its number. -/
def perform : Act → Lower (Option Nat)
  | enter => do
    Lower.enterFunction
    return none
  | declare l => do
    modify (·.declare l)
    return none
  | leave body => return some (← Lower.leaveFunction body)

/-- How many functions are open after some acts, where so many were open before. There is no answer
if a function is left that was not entered. -/
def depth? : Nat → List Act → Option Nat
  | d, [] => some d
  | d, enter :: acts => depth? (d + 1) acts
  | d, declare _ :: acts => depth? d acts
  | 0, leave _ :: _ => none
  | d + 1, leave _ :: acts => depth? d acts

/-- Each leave has its enter. -/
def Bracketed (acts : List Act) : Prop := (depth? 0 acts).isSome = true

/-- Each leave has its enter, and each enter its leave. -/
def Balanced (acts : List Act) : Prop := depth? 0 acts = some 0

/-- The locals that are declared outside of the functions that the acts enter, where so many of these
are open before. -/
def own : Nat → List Act → List Local
  | _, [] => []
  | d, enter :: acts => own (d + 1) acts
  | 0, declare l :: acts => l :: own 0 acts
  | d + 1, declare _ :: acts => own (d + 1) acts
  | d, leave _ :: acts => own (d - 1) acts

/-- How many functions are left. -/
def leaves : List Act → Nat
  | [] => 0
  | leave _ :: acts => leaves acts + 1
  | _ :: acts => leaves acts

instance (acts : List Act) : Decidable (Bracketed acts) := inferInstanceAs (Decidable (_ = true))

instance (acts : List Act) : Decidable (Balanced acts) := inferInstanceAs (Decidable (_ = _))

variable {acts more inner outer : List Act} {d e : Nat}

theorem depth?_append (d : Nat) (acts more : List Act) :
    depth? d (acts ++ more) = (depth? d acts).bind fun e => depth? e more := by
  induction acts generalizing d with
  | nil => rfl
  | cons a acts ih =>
    cases a with
    | enter => exact ih (d + 1)
    | declare l => exact ih d
    | leave body =>
      cases d with
      | zero => rfl
      | succ d => exact ih d

theorem leaves_append (acts more : List Act) : leaves (acts ++ more) = leaves acts + leaves more := by
  induction acts with
  | nil => simp [leaves]
  | cons a acts ih => cases a <;> simp [leaves, ih, Nat.add_right_comm]

theorem Bracketed.of_append (h : Bracketed (acts ++ more)) : Bracketed acts := by
  rw [Bracketed, depth?_append] at h
  rw [Bracketed]
  cases hacts : depth? 0 acts with
  | none => simp [hacts] at h
  | some d => rfl

theorem Balanced.bracketed (h : Balanced acts) : Bracketed acts := by
  rw [Bracketed, h]
  rfl

theorem Balanced.append (h : Balanced acts) (hmore : Balanced more) : Balanced (acts ++ more) := by
  rw [Balanced, depth?_append, h, Option.bind_some, hmore]

/-- Acts do the same to functions that are opened further out. -/
theorem depth?_succ (h : depth? d acts = some e) : depth? (d + 1) acts = some (e + 1) := by
  fun_induction depth? d acts with
  | case1 d => simpa [depth?] using h
  | case2 d acts ih => exact ih h
  | case3 d l acts ih => simpa [depth?] using ih h
  | case4 => cases h
  | case5 d body acts ih => exact ih h

theorem own_append (h : depth? d acts = some e) (more : List Act) :
    own d (acts ++ more) = own d acts ++ own e more := by
  fun_induction depth? d acts with
  | case1 d =>
    cases h
    simp [own]
  | case2 d acts ih => simpa [own] using ih h
  | case3 d l acts ih => cases d <;> simpa [own] using ih h
  | case4 => cases h
  | case5 d body acts ih => simpa [own] using ih h

/-- Where only functions are left, nothing is declared. -/
theorem own_append_leaves (h : Bracketed acts) (bodies : List Code) :
    own 0 (acts ++ bodies.map leave) = own 0 acts := by
  have hleaves (d : Nat) : own d (bodies.map leave) = [] := by
    induction bodies generalizing d with
    | nil => rfl
    | cons body bodies ih =>
      rw [List.map_cons, own]
      exact ih (d - 1)
  obtain ⟨e, he⟩ := Option.isSome_iff_exists.1 h
  rw [own_append he, hleaves, List.append_nil]

/-- What is declared inside of a function is none of the locals around it. -/
theorem own_succ (h : depth? d acts = some e) : own (d + 1) acts = [] := by
  fun_induction depth? d acts with
  | case1 d => rfl
  | case2 d acts ih => simpa [own] using ih h
  | case3 d l acts ih => simpa [own] using ih h
  | case4 => cases h
  | case5 d body acts ih => simpa [own] using ih h

theorem Balanced.depth? (h : Balanced acts) (n : Nat) : depth? n acts = some n := by
  induction n with
  | zero => exact h
  | succ n ih => exact depth?_succ ih

/-- A whole function is one balanced act, without locals for the function around it. -/
theorem Balanced.function (h : Balanced inner) (body : Code) :
    Balanced (enter :: inner ++ [leave body]) ∧ own 0 (enter :: inner ++ [leave body]) = [] := by
  constructor
  · show Act.depth? 1 (inner ++ [leave body]) = some 0
    rw [depth?_append, h.depth? 1]
    rfl
  · show own 1 (inner ++ [leave body]) = []
    rw [own_append (h.depth? 1), own_succ h]
    rfl

/-- What was done since the enter that a leave would belong to now. -/
def Since (before inner : List Act) : Prop := Balanced inner ∧ ∃ outer, before = outer ++ enter :: inner

theorem Balanced.not_append_enter (h : Balanced inner) (outer : List Act) : ¬ Balanced (outer ++ enter :: inner) := by
  intro houter
  rw [Balanced, depth?_append] at houter
  obtain ⟨d, -, hd⟩ := Option.bind_eq_some_iff.1 houter
  have hinner : Act.depth? d (enter :: inner) = some (d + 1) := h.depth? (d + 1)
  rw [hinner] at hd
  cases hd

/-- A leave belongs to one enter only. -/
theorem Since.unique {before inner' : List Act} (h : Since before inner) (h' : Since before inner') :
    inner = inner' := by
  obtain ⟨hinner, outer, rfl⟩ := h
  obtain ⟨hinner', outer', heq⟩ := h'
  -- if the enters were different, one of them would be inside of the other's function, and open
  rcases List.append_eq_append_iff.1 heq with ⟨more, rfl, hmore⟩ | ⟨more, rfl, hmore⟩
  · cases more with
    | nil => exact (List.cons.inj hmore).2
    | cons a more =>
      obtain ⟨rfl, rfl⟩ := List.cons.inj hmore
      exact absurd hinner (hinner'.not_append_enter more)
  · cases more with
    | nil => exact (List.cons.inj hmore).2.symm
    | cons a more =>
      obtain ⟨rfl, rfl⟩ := List.cons.inj hmore
      exact absurd hinner' (hinner.not_append_enter more)

/-! ## Open functions -/

/-- The locals declared so far in the functions that are open, the innermost first. The last ones are
those outside of all functions. -/
inductive Open : List Act → List (List Local) → Prop
  | root {acts : List Act} : Balanced acts → Open acts [own 0 acts]
  | inside {outer inner : List Act} {levels : List (List Local)} : Open outer levels → Balanced inner →
      Open (outer ++ enter :: inner) (own 0 inner :: levels)

namespace Open

variable {block : List Act} {level : List Local} {levels : List (List Local)}

/-- What is done in the innermost function adds to its locals. -/
theorem append (h : Open acts (level :: levels)) (hblock : Balanced block) :
    Open (acts ++ block) ((level ++ own 0 block) :: levels) := by
  cases h with
  | root hacts =>
    rw [← own_append hacts]
    exact .root (hacts.append hblock)
  | inside houter hinner =>
    rw [← own_append hinner, List.append_assoc]
    exact .inside houter (hinner.append hblock)

theorem ne_nil (h : Open acts levels) : levels ≠ [] := by
  cases h with
  | root => exact List.cons_ne_nil _ _
  | inside => exact List.cons_ne_nil _ _

/-- One function is open for every level but the last. -/
theorem depth? (h : Open acts (level :: levels)) : Act.depth? 0 acts = some levels.length := by
  generalize hall : level :: levels = all at h
  induction h generalizing level levels with
  | root hacts =>
    cases hall
    exact hacts
  | inside houter hinner ih =>
    cases hall
    obtain ⟨next, rest, rfl⟩ := List.exists_cons_of_ne_nil houter.ne_nil
    rw [depth?_append, ih rfl, Option.bind_some, List.length_cons]
    exact hinner.depth? _

/-- Outside of all functions, the only level is that of all acts. -/
theorem of_balanced (h : Open acts levels) (hacts : Balanced acts) : levels = [own 0 acts] := by
  cases h with
  | root => rfl
  | inside houter hinner =>
    have hdepth := (houter.inside hinner).depth?
    rw [hacts] at hdepth
    exact absurd (List.eq_nil_of_length_eq_zero (Option.some.inj hdepth).symm) houter.ne_nil

end Open

/-! ## Steps -/

variable {before : List Act} {answers : List (Option Nat)} {defs defs' : Definitions} {body : Code}

/-- The function that is left after some acts has the number of functions left before, and the locals
declared since the enter that it belongs to, outside of the functions inside of it, each once. -/
def Made (defs : Definitions) (before : List Act) (body : Code) : Prop :=
  ∃ inner, Since before inner ∧
    defs.funcs[leaves before]? = some {
      name := Family.literals.name (leaves before)
      params := [.word Library.Env.current]
      result := some .i32
      locals := (own 0 inner).eraseDups
      body := body }

theorem Made.mono (h : Made defs before body) (hfuncs : defs.funcs <+: defs'.funcs) : Made defs' before body := by
  obtain ⟨inner, hinner, hf⟩ := h
  obtain ⟨rest, hrest⟩ := hfuncs
  refine ⟨inner, hinner, ?_⟩
  rw [← hrest, List.getElem?_append_left (List.getElem?_eq_some_iff.1 hf).1, hf]

/-- What holds after some acts, and the answers to them. -/
structure Upheld (acts : List Act) (answers : List (Option Nat)) (defs : Definitions) : Prop where
  frames : ∃ levels, Open acts levels ∧ defs.frames = levels.map List.eraseDups
  answers : answers.reduceOption = List.range (leaves acts)
  names : defs.funcs.map (·.name) = (List.range (leaves acts)).map Family.literals.name
  made : ∀ before body after, acts = before ++ Act.leave body :: after → Made defs before body

theorem Upheld.start : Upheld [] [] .withRoot where
  frames := ⟨[[]], .root rfl, rfl⟩
  answers := rfl
  names := rfl
  made before body after h := by simp at h

theorem Upheld.length (h : Upheld acts answers defs) : defs.funcs.length = leaves acts := by
  simpa using congrArg List.length h.names

/-- A local is added to those declared before, once. -/
theorem eraseDups_concat (locals : List Local) (l : Local) : (locals ++ [l]).eraseDups =
    if l ∈ locals.eraseDups then locals.eraseDups else locals.eraseDups ++ [l] := by
  rw [List.eraseDups_append]
  by_cases hl : l ∈ locals <;> simp [List.removeAll, hl, List.eraseDups_cons]

/-- An act that leaves no function. -/
theorem Upheld.quiet (h : Upheld acts answers defs) {a : Act} (ha : ∀ body, a ≠ .leave body)
    (hframes : ∃ levels, Open (acts ++ [a]) levels ∧ defs'.frames = levels.map List.eraseDups)
    (hfuncs : defs'.funcs = defs.funcs) : Upheld (acts ++ [a]) (answers ++ [none]) defs' := by
  have hleaves : leaves (acts ++ [a]) = leaves acts := by
    rw [leaves_append]
    cases a with
    | leave body => exact absurd rfl (ha body)
    | _ => rfl
  refine ⟨hframes, ?_, ?_, fun before body after hsplit => ?_⟩
  · rw [hleaves, List.reduceOption_append, h.answers]
    simp
  · rw [hleaves, hfuncs, h.names]
  · rcases List.eq_nil_or_concat after with rfl | ⟨rest, b, rfl⟩
    · exact absurd (List.append_inj_right' hsplit rfl) (by simpa using ha body)
    · rw [List.concat_eq_append, ← List.cons_append, ← List.append_assoc] at hsplit
      refine (h.made before body rest (List.append_inj_left' hsplit rfl)).mono ?_
      rw [hfuncs]

theorem Upheld.enter (h : Upheld acts answers defs) : Upheld (acts ++ [Act.enter]) (answers ++ [none]) defs.enter := by
  obtain ⟨levels, hopen, hframes⟩ := h.frames
  refine h.quiet (by simp) ⟨[] :: levels, hopen.inside (rfl : Balanced []), ?_⟩ rfl
  rw [List.map_cons, ← hframes]
  rfl

theorem Upheld.declare (h : Upheld acts answers defs) (l : Local) :
    Upheld (acts ++ [Act.declare l]) (answers ++ [none]) (defs.declare l) := by
  obtain ⟨levels, hopen, hframes⟩ := h.frames
  obtain ⟨level, rest, rfl⟩ := List.exists_cons_of_ne_nil hopen.ne_nil
  rw [List.map_cons] at hframes
  refine h.quiet (by simp) ⟨(level ++ [l]) :: rest, hopen.append (rfl : Balanced [Act.declare l]), ?_⟩ ?_
  · simp only [Definitions.declare, hframes, List.map_cons, eraseDups_concat]
  · simp only [Definitions.declare, hframes]

theorem Upheld.leave (h : Upheld acts answers defs) (hacts : Bracketed (acts ++ [Act.leave body])) :
    Upheld (acts ++ [Act.leave body]) (answers ++ [some defs.funcs.length]) (defs.leave .literals body) := by
  obtain ⟨levels, hopen, hframes⟩ := h.frames
  have hleaves : leaves (acts ++ [Act.leave body]) = leaves acts + 1 := leaves_append _ _
  cases hopen with
  | root hbalanced =>
    rw [Bracketed, depth?_append, hbalanced] at hacts
    cases hacts
  | @inside outer inner levels houter hinner =>
    obtain ⟨level, rest, rfl⟩ := List.exists_cons_of_ne_nil houter.ne_nil
    obtain ⟨hblock, hown⟩ := hinner.function body
    refine ⟨⟨level :: rest, ?_, ?_⟩, ?_, ?_, fun before body' after hsplit => ?_⟩
    · have hopen := houter.append hblock
      rw [hown, List.append_nil] at hopen
      simpa using hopen
    · simp [Definitions.leave, Definitions.close, hframes]
    · rw [hleaves, List.range_succ, ← h.answers, h.length, List.reduceOption_append]
      rfl
    · rw [hleaves, List.range_succ, List.map_append, ← h.names, ← h.length]
      simp [Definitions.leave]
    · rcases List.eq_nil_or_concat after with rfl | ⟨more, b, rfl⟩
      · obtain ⟨rfl, hlast⟩ := List.append_inj' hsplit rfl
        cases hlast
        refine ⟨inner, ⟨hinner, outer, rfl⟩, ?_⟩
        rw [← h.length]
        simp [Definitions.leave, Definitions.close, hframes, Family.literals]
      · rw [List.concat_eq_append, ← List.cons_append, ← List.append_assoc] at hsplit
        exact (h.made before body' more (List.append_inj_left' hsplit rfl)).mono (List.prefix_append _ _)

theorem Upheld.tableFields (h : Upheld acts answers defs) : defs.tableFields =
    if leaves acts = 0 then [] else [
      .table Library.Closures.table (leaves acts),
      .elem Library.Closures.table 0 ((List.range (leaves acts)).map Family.literals.name)] := by
  have hempty : defs.funcs.isEmpty = true ↔ leaves acts = 0 := by
    rw [List.isEmpty_iff_length_eq_zero, h.length]
  simp only [Definitions.tableFields, hempty, h.length, h.names]

/-- Outside of all functions there are the locals that were declared there. -/
theorem Upheld.close_of_balanced (h : Upheld acts answers defs) (hacts : Balanced acts) :
    defs.close.1 = (own 0 acts).eraseDups := by
  obtain ⟨levels, hopen, hframes⟩ := h.frames
  rw [hopen.of_balanced hacts] at hframes
  simp [Definitions.close, hframes]

/-- **One act** upholds it. -/
theorem Upheld.act {s : State} (h : Upheld acts answers s.functions) (a : Act) (hacts : Bracketed (acts ++ [a])) :
    ∃ answer t, a.perform s = .ok answer t ∧ Upheld (acts ++ [a]) (answers ++ [answer]) t.functions := by
  cases a with
  | enter => exact ⟨_, _, rfl, h.enter⟩
  | declare l => exact ⟨_, _, rfl, h.declare l⟩
  | leave body => exact ⟨_, _, rfl, h.leave hacts⟩

/-- **Acts one after the other** uphold it. -/
theorem Upheld.run {s : State} (h : Upheld acts answers s.functions) (hacts : Bracketed (acts ++ more)) :
    ∃ later t, more.mapM perform s = .ok later t ∧ Upheld (acts ++ more) (answers ++ later) t.functions := by
  induction more generalizing acts answers s with
  | nil => exact ⟨[], s, rfl, by simpa using h⟩
  | cons a more ih =>
    rw [List.append_cons] at hacts
    obtain ⟨answer, t, hperform, ht⟩ := h.act a hacts.of_append
    obtain ⟨later, u, hrest, hu⟩ := ih ht hacts
    refine ⟨answer :: later, u, ?_, by simpa using hu⟩
    rw [List.mapM_cons, Lower.bind_apply, hperform]
    simp only [Lower.bind_apply, hrest]
    rfl

end Act

/-- **Functions that are made inside of each other keep their locals apart.** -/
theorem nested_locals_apart (acts : List Act) (hacts : Act.Bracketed acts) (s : State) :
    ∃ answers t, acts.mapM Act.perform { s with functions := .withRoot } = .ok answers t ∧
      answers.reduceOption = List.range (Act.leaves acts) ∧
      (∀ before body after, acts = before ++ Act.leave body :: after → Act.Made t.functions before body) ∧
      (∀ bodies : List Code, Act.Balanced (acts ++ bodies.map Act.leave) →
        ∃ later u, (bodies.map Act.leave).mapM Act.perform t = .ok later u ∧
          u.functions.close.1 = (Act.own 0 acts).eraseDups) ∧
      t.functions.tableFields = if Act.leaves acts = 0 then [] else [
        .table Library.Closures.table (Act.leaves acts),
        .elem Library.Closures.table 0 ((List.range (Act.leaves acts)).map Family.literals.name)] := by
  obtain ⟨answers, t, hrun, ht⟩ := Act.Upheld.run (s := { s with functions := .withRoot }) .start hacts
  refine ⟨answers, t, hrun, ht.answers, ht.made, fun bodies hbalanced => ?_, ht.tableFields⟩
  obtain ⟨later, u, hleave, hu⟩ := ht.run (Act.Balanced.bracketed hbalanced)
  refine ⟨later, u, hleave, ?_⟩
  rw [hu.close_of_balanced hbalanced, List.nil_append, Act.own_append_leaves hacts]

/-- A function inside of another one, with the same locals declared again and again, in it and around. -/
def Act.twoNested : List Act :=
  [.declare (.word "a"), .enter, .declare (.word "x"), .enter, .declare (.word "a"), .declare ⟨"x", .f64⟩,
    .declare (.word "a"), .leave [], .declare (.word "y"), .declare (.word "x"), .leave [.i32Const 1],
    .declare (.word "b"), .declare (.word "a")]

/-- The inner function is left first, and each has its own locals only. -/
theorem nested_locals_apart_twoNested : Act.Bracketed Act.twoNested ∧
    ∃ answers t, Act.twoNested.mapM Act.perform State.initial = .ok answers t ∧ answers.reduceOption = [0, 1] ∧
      t.functions.funcs[0]?.map (fun f : Func => f.locals) = some [.word "a", ⟨"x", .f64⟩] ∧
      t.functions.funcs[1]?.map (fun f : Func => f.locals) = some [.word "x", .word "y"] ∧
      t.functions.close.1 = [.word "a", .word "b"] ∧
      t.functions.tableFields = [
        .table Library.Closures.table 2, .elem Library.Closures.table 0 ["fn_0", "fn_1"]] := by
  obtain ⟨answers, t, hrun, hanswers, hmade, hroot, htables⟩ :=
    nested_locals_apart Act.twoNested (by decide) State.initial
  have hfirst : Act.Since (Act.twoNested.take 7) ((Act.twoNested.take 7).drop 4) :=
    ⟨by decide, Act.twoNested.take 3, rfl⟩
  have hsecond : Act.Since (Act.twoNested.take 10) ((Act.twoNested.take 10).drop 2) :=
    ⟨by decide, Act.twoNested.take 1, rfl⟩
  obtain ⟨inner, hinner, hf⟩ := hmade (Act.twoNested.take 7) [] (Act.twoNested.drop 8) rfl
  obtain ⟨inner', hinner', hf'⟩ := hmade (Act.twoNested.take 10) [.i32Const 1] (Act.twoNested.drop 11) rfl
  obtain ⟨later, u, hleave, hlocals⟩ := hroot [] (by decide)
  cases hinner.unique hfirst
  cases hinner'.unique hsecond
  cases hleave
  exact ⟨by decide, answers, t, hrun, hanswers, congrArg (Option.map (·.locals)) hf,
    congrArg (Option.map (·.locals)) hf', hlocals, htables⟩

end WasmBackend
