/-
The components that allocate: a heap that only grows, and on it pairs of
words, environments, lists, boxed floats and closures. An environment is a
chain of pairs (parent, value), a list cell a tagged pair (tail, head), a
closure a tagged pair (environment, slot of its code). Nothing is changed
once it is written, so chains can share their ends.
-/
import WasmBackend.Component
import WasmBackend.Library.Names

namespace WasmBackend.Library

/-- Turns the address on top of the stack into a boxed word. -/
def tagCode (t : Tag) : Code :=
  [.i32Const (.ofNat 32 Tag.shift), .op .i32Shl, .i32Const t.bits, .op .i32Or]

/-- Turns the boxed word on top of the stack back into its address. -/
def untagCode : Code := [.i32Const (.ofNat 32 Tag.shift), .op .i32ShrU]

/-- One memory of `pages` pages. Address zero is never handed out. -/
def allocator (pages : Nat) : Component where
  name := "allocator"
  fields := [
    .memory Heap.memory pages,
    .global Heap.top true Word.heapStart,
    .func (.words Heap.alloc ["size"] ["address"] [
      .globalGet Heap.top,
      .localTee "address",
      .localGet "size",
      .op .i32Add,
      .globalSet Heap.top,
      .localGet "address"]),
    .exports Heap.memory .memory Heap.memory]
  requires := []

def tuple (pages : Nat) : Component :=
  .ofFuncs "tuple" [
    .words Pair.new ["first", "second"] ["address"] [
      .i32Const 8,
      .call Heap.alloc,
      .localTee "address",
      .localGet "first",
      .store .i32 0,
      .localGet "address",
      .localGet "second",
      .store .i32 4,
      .localGet "address"],
    .words Pair.first ["address"] [] [.localGet "address", .load .i32 0],
    .words Pair.second ["address"] [] [.localGet "address", .load .i32 4]]
    [allocator pages]

def environment (pages : Nat) : Component :=
  .ofFuncs "environment" [
    .words Env.new ["parent", "value"] [] [.localGet "parent", .localGet "value", .call Pair.new],
    .words Env.get ["env", "depth"] [] [
      .localGet "depth",
      .op .i32Eqz,
      .condWord
        [.localGet "env", .call Pair.second]
        [.localGet "env",
          .call Pair.first,
          .localGet "depth",
          .i32Const 1,
          .op .i32Sub,
          .call Env.get]],
    .words Env.parent ["env"] [] [.localGet "env", .call Pair.first]]
    [tuple pages]

/-- The functions that read one half of the pair behind a boxed word. -/
def half (name param get : String) : Func :=
  .words name [param] [] (.localGet param :: untagCode ++ [.call get])

def list (pages : Nat) : Component :=
  .ofFuncs "list" [
    .words Lists.empty [] [] [.i32Const Word.emptyList],
    .words Lists.push ["list", "value"] []
      ([.localGet "list", .localGet "value", .call Pair.new] ++ tagCode .list),
    .words Lists.isEmpty ["list"] [] [.localGet "list", .op .i32Eqz],
    half Lists.head "list" Pair.second,
    half Lists.tail "list" Pair.first]
    [tuple pages]

def float (pages : Nat) : Component :=
  .ofFuncs "float" [
    { name := Floats.new
      params := [⟨"value", .f64⟩]
      result := some .i32
      locals := [.word "address"]
      body := [
        .i32Const 8,
        .call Heap.alloc,
        .localTee "address",
        .localGet "value",
        .store .f64 0,
        .localGet "address"] ++ tagCode .float },
    { name := Floats.get
      params := [.word "boxed"]
      result := some .f64
      locals := []
      body := .localGet "boxed" :: untagCode ++ [.load .f64 0] }]
    [allocator pages]

def closure (pages : Nat) : Component :=
  .ofFuncs "closure" [
    .words Closures.new ["env", "index"] []
      ([.localGet "env", .localGet "index", .call Pair.new] ++ tagCode .closure),
    half Closures.env "closure" Pair.first,
    half Closures.index "closure" Pair.second]
    [tuple pages]

/-- Matching primitives. A matcher takes the environment to extend and the value to look at, and
returns the extended environment, or zero, which no environment is. -/
def matcher (pages : Nat) : Component :=
  .ofFuncs "matcher" [
    .words Matchers.wildcard ["env", "value"] [] [.localGet "env"],
    .words Matchers.emptyList ["env", "value"] [] [
      .localGet "value",
      .call Lists.isEmpty,
      .condWord [.localGet "env"] [.i32Const Matchers.failure]],
    .words Matchers.identifier ["env", "value"] []
      [.localGet "env", .localGet "value", .call Env.new]]
    [list pages, environment pages]

end WasmBackend.Library
