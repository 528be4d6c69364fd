/-
Scopes at compile time: one frame for each frame that the environment has
when the code runs, the innermost first. A frame without a name can not be
referred to, but counts.
-/
namespace WasmBackend

structure Scopes where
  frames : List (Option String)
deriving DecidableEq, Repr

namespace Scopes

def empty : Scopes := ⟨[]⟩

def depth (s : Scopes) : Nat := s.frames.length

def push (s : Scopes) (frame : Option String) : Scopes := ⟨frame :: s.frames⟩

/-- Pushes frames in order, so that the last one is innermost. -/
def pushAll (s : Scopes) (frames : List (Option String)) : Scopes := frames.foldl push s

def pop (s : Scopes) : Scopes := ⟨s.frames.drop 1⟩

/-- Drops inner frames until at most `depth` are left. -/
def restore (s : Scopes) (depth : Nat) : Scopes := ⟨s.frames.drop (s.depth - depth)⟩

/-- How many frames out the innermost one of this name is. -/
def distance? (s : Scopes) (name : String) : Option Nat := s.frames.findIdx? (· = some name)

theorem distance?_eq_none {s : Scopes} {name : String} : s.distance? name = none ↔ some name ∉ s.frames := by
  rw [distance?, List.findIdx?_eq_none_iff]
  constructor
  · intro h hmem
    simpa using h _ hmem
  · intro h frame hframe
    refine decide_eq_false fun heq => h ?_
    rwa [← heq]

end Scopes

end WasmBackend
