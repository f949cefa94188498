import WasmBackend.Symbols.ModuleInfo

/-!
# The standard library catalog

Modules that exist without source: what they export is known in advance. A catalog is keyed by
module name, and a module put in again replaces the earlier one.
-/

namespace WasmBackend

structure Catalog where
  modules : Table String ModuleInfo := {}

namespace Catalog

def empty : Catalog := {}

def insert (c : Catalog) (m : ModuleInfo) : Catalog := ⟨c.modules.set m.name m⟩

def get? (c : Catalog) (name : String) : Option ModuleInfo := c.modules.get? name

def contains (c : Catalog) (name : String) : Bool := c.modules.contains name

/-- The names of the modules, in ascending order. -/
def names (c : Catalog) : List String := c.modules.keys.mergeSort (fun a b => decide (a ≤ b))

/-! ## The built-in catalog -/

/-- The modules of the standard library, in order of documentation. -/
def stdlibModules : List String := ["memory", "math", "string"]

def memoryFunctions : List (String × String) :=
  [("malloc", "i_i"), ("free", "i_v"), ("memcpy", "iii_v"), ("memset", "iii_v")]

def mathFunctions : List (String × String) :=
  [("sqrt", "f_f"), ("floor", "f_f"), ("ceil", "f_f"), ("fabs", "f_f"),
    ("pow", "ff_f"), ("fmin", "ff_f"), ("fmax", "ff_f"), ("abs", "i_i")]

def stringFunctions : List (String × String) :=
  [("strlen", "i_i"), ("strcmp", "ii_i"), ("concat", "ii_i"), ("print", "i_v")]

/-- The fields of a string header. -/
def stringFields : List Binding := [⟨"length", .i32⟩, ⟨"data", .pointer (.scalar .u8)⟩]

/-- A module that exports functions with these encoded signatures. -/
def functionsModule (name : String) (functions : List (String × String)) : Compiled ModuleInfo :=
  functions.foldlM (fun m (function, encoded) => do
    m.addExport function (.function (← Signature.ofEncoded encoded))) (ModuleInfo.empty name 0)

def builtin : Compiled Catalog := do
  let memory ← functionsModule "memory" memoryFunctions
  let math ← functionsModule "math" mathFunctions
  let string ← functionsModule "string" stringFunctions
  let layout ← StructLayout.ofFields "string" stringFields true
  let string ← string.addExport "string" (.struct layout)
  return empty.insert memory |>.insert math |>.insert string

end Catalog

end WasmBackend
