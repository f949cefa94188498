import WasmBackend.Main
import WasmBackend.Proofs.Building
import WasmBackend.Proofs.Data.Coincidence
import WasmBackend.Proofs.Lanes.Extension
import WasmBackend.Proofs.Memory.Constants
import WasmBackend.Proofs.Memory.ElementTypes
import WasmBackend.Proofs.Memory.InStep
import WasmBackend.Proofs.Memory.Places
import WasmBackend.Proofs.Modules.Restoration
import WasmBackend.Proofs.Nesting.Labels
import WasmBackend.Proofs.Program.Rearrangement
import WasmBackend.Proofs.Program.WorkingSet
import WasmBackend.Proofs.Scoping.Visibility
import WasmBackend.Proofs.Stack.Bodies
import WasmBackend.Proofs.Stack.Calls
import WasmBackend.Proofs.Stack.VoidOperands
import WasmBackend.Proofs.Stored.Modules
import WasmBackend.Proofs.Symbols.Indexed
import WasmBackend.Proofs.Symbols.Signatures
import WasmBackend.Proofs.Types.Grammar
