/-
Settings of a compilation and what makes them invalid.
-/
namespace WasmBackend

structure Settings where
  /-- Compare operands that are known to be words without looking at tags. -/
  dispatchUsingInferredType : Bool
  /-- Run the peephole passes. -/
  reduceInstructions : Bool
  /-- Keep names in the binary. -/
  enableNameSection : Bool
  /-- The size of the heap, in pages of 64 KiB. -/
  memoryPages : UInt32
  /-- The name under which the entry point is exported. -/
  exportName : String
deriving DecidableEq, Repr

inductive SettingsError where
  | noMemory
  | tooMuchMemory (pages : UInt32)
deriving DecidableEq, Repr

/-- A boxed word has 28 bits for an address, and stays positive up to 27 of them. -/
def maxPages : UInt32 := 2048

def SettingsError.message : SettingsError → String
  | noMemory => "memoryPages must be at least 1"
  | tooMuchMemory pages =>
    "memoryPages is " ++ toString pages.toNat ++ ", but boxed words can only address " ++
      toString maxPages.toNat ++ " pages"

namespace Settings

def default : Settings where
  dispatchUsingInferredType := false
  reduceInstructions := false
  enableNameSection := false
  memoryPages := 16
  exportName := "main"

def validate (s : Settings) : Except SettingsError Unit :=
  if s.memoryPages = 0 then .error .noMemory
  else if maxPages < s.memoryPages then .error (.tooMuchMemory s.memoryPages)
  else .ok ()

end Settings

end WasmBackend
