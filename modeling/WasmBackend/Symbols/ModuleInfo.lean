import WasmBackend.Data.Image
import WasmBackend.Symbols.Layout
import WasmBackend.Symbols.Signature

/-!
# What is known about a module

The tables that extraction fills from one syntax tree and that linking and code generation read:
structs, functions, imports, exports and globals, the constant data, and where each literal of the
tree was placed in it. Linking changes one thing only, the descriptors of imports.
-/

namespace WasmBackend

structure FunctionEntry where
  signature : Signature
  exported : Bool
  decl : StmtId
  deriving DecidableEq, Repr, Inhabited

/-- Where a global lives: in a machine global, or as constant data at an address. -/
inductive Storage where
  | register
  | memory (address : Nat)
  deriving DecidableEq, Repr, Inhabited

def Storage.isMemory : Storage → Bool
  | .memory _ => true
  | .register => false

structure GlobalEntry where
  ty : Ty
  storage : Storage
  exported : Bool
  init : ExprId
  deriving DecidableEq, Repr, Inhabited

/-- What another module needs to know about an exported name. -/
inductive Descriptor where
  | function (signature : Signature)
  | global (ty : Ty) (memoryBacked : Bool)
  | struct (layout : StructLayout)
  deriving DecidableEq, Repr

def Descriptor.function? : Descriptor → Option Signature
  | .function s => some s
  | _ => none

/-- An imported name. Its descriptor is missing until linking finds it. -/
structure ImportEntry where
  source : String
  name : String
  descriptor : Option Descriptor := none
  deriving DecidableEq, Repr

namespace ImportEntry

def isResolved (i : ImportEntry) : Bool := i.descriptor.isSome

/-- Records the descriptor, unless there is one already. -/
def resolve (i : ImportEntry) (d : Descriptor) : ImportEntry :=
  if i.isResolved then i else { i with descriptor := some d }

/-- The descriptor, which linking must have found. -/
def resolved (i : ImportEntry) : Compiled Descriptor :=
  match i.descriptor with
  | some d => .ok d
  | none => .error (.unresolvedImport i.name)

end ImportEntry

structure ModuleInfo where
  name : String
  structs : Table String StructLayout := {}
  functions : Table String FunctionEntry := {}
  imports : Table String ImportEntry := {}
  exports : Table String Descriptor := {}
  globals : Table String GlobalEntry := {}
  data : DataImage
  literals : Table ExprId Nat := {}
  deriving DecidableEq, Repr

namespace ModuleInfo

/-- A module of which nothing is known, with its data starting at `base`. -/
def empty (name : String) (base : Nat) : ModuleInfo := { name, data := .startingAt base }

/-- The layout of a struct: one of this module's own, or an imported one. -/
def structLayout (m : ModuleInfo) (name : String) : Compiled StructLayout :=
  match m.structs.get? name with
  | some layout => .ok layout
  | none =>
    match (m.imports.get? name).bind ImportEntry.descriptor with
    | some (.struct layout) => .ok layout
    | _ => .error (.unknownStruct name)

def unresolved (m : ModuleInfo) : List (String × ImportEntry) :=
  m.imports.entries.filter fun e => !e.2.isResolved

/-- The first address after the module's data. -/
def dataEnd (m : ModuleInfo) : Nat := m.data.cursor

def addExport (m : ModuleInfo) (name : String) (d : Descriptor) : Compiled ModuleInfo :=
  match m.exports.insert? name d with
  | some exports => .ok { m with exports }
  | none => .error (.duplicateDefinition .exported name)

end ModuleInfo

end WasmBackend
