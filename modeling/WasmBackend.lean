import WasmBackend.Comparison
import WasmBackend.Component
import WasmBackend.Diagnostic
import WasmBackend.Double.Basic
import WasmBackend.Double.Shortest
import WasmBackend.Double.Text
import WasmBackend.Library.Compare
import WasmBackend.Library.Heap
import WasmBackend.Library.Names
import WasmBackend.Lower.Definitions
import WasmBackend.Lower.Emit
import WasmBackend.Lower.Scopes
import WasmBackend.Lower.State
import WasmBackend.Lower.Tree
import WasmBackend.Peephole
import WasmBackend.Program
import WasmBackend.Settings.Basic
import WasmBackend.Settings.Text
import WasmBackend.Source.Bytes
import WasmBackend.Source.CharClass
import WasmBackend.Source.Excerpt
import WasmBackend.Source.ExtendingMark
import WasmBackend.Source.Path
import WasmBackend.Source.Quoted
import WasmBackend.Source.Span
import WasmBackend.Source.Unprinted
import WasmBackend.Toml.Document
import WasmBackend.Toml.Number
import WasmBackend.Toml.Text
import WasmBackend.Toml.Token
import WasmBackend.Toml.Value
import WasmBackend.Tree.Node
import WasmBackend.Tree.Sketch
import WasmBackend.Tree.Types
import WasmBackend.Value.Basic
import WasmBackend.Value.Decode
import WasmBackend.Wasm.Binary
import WasmBackend.Wasm.Image
import WasmBackend.Wasm.Instr
import WasmBackend.Wasm.Leb128
import WasmBackend.Wasm.Module
import WasmBackend.Wasm.Text
import WasmBackend.Word
import WasmBackend.Proofs.Assembly.Linking
import WasmBackend.Proofs.Assembly.Program
import WasmBackend.Proofs.Assembly.Order
import WasmBackend.Proofs.Assembly.Faults
import WasmBackend.Proofs.Compare.Order
import WasmBackend.Proofs.Compilation.Preservation
import WasmBackend.Proofs.Compilation.Reduction
import WasmBackend.Proofs.Compilation.Acceptance
import WasmBackend.Proofs.Heap.Discipline
import WasmBackend.Proofs.Binary.Reader
import WasmBackend.Proofs.Binary.Written
import WasmBackend.Proofs.Binary.Faithful
import WasmBackend.Proofs.Compilation.WellTyped
import WasmBackend.Proofs.Compilation.Dispatch
import WasmBackend.Proofs.Compilation.Renaming
import WasmBackend.Proofs.Heap.Growth
import WasmBackend.Proofs.Heap.RoundTrip
import WasmBackend.Proofs.Assembly.Offences
import WasmBackend.Proofs.Assembly.Meaning
import WasmBackend.Proofs.Compilation.Exports
import WasmBackend.Proofs.Double.Rounding
import WasmBackend.Proofs.Text.Words
import WasmBackend.Proofs.Text.Doubles
import WasmBackend.Proofs.Text.Code
import WasmBackend.Proofs.Text.Modules
import WasmBackend.Proofs.Lowering.Patterns
import WasmBackend.Proofs.Lowering.Brackets
import WasmBackend.Proofs.Lowering.Walks
import WasmBackend.Proofs.Compilation.Closures
import WasmBackend.Proofs.Simulation.Restoring
import WasmBackend.Proofs.Compilation.Restoring
import WasmBackend.Proofs.Compilation.Matchers
import WasmBackend.Proofs.Lowering.Failures
import WasmBackend.Proofs.Compilation.Components
import WasmBackend.Proofs.Simulation.Integers
import WasmBackend.Proofs.Peephole.NormalForm
import WasmBackend.Proofs.Source.Positions
import WasmBackend.Proofs.Source.Excerpts
import WasmBackend.Proofs.Data.Cycles
import WasmBackend.Proofs.Toml.Scalars
import WasmBackend.Proofs.Toml.RoundTrip
import WasmBackend.Proofs.Lowering.Nesting
import WasmBackend.Proofs.Tree.Spans
import WasmBackend.Proofs.Heap.Chains
