import WasmBackend.Build.Load
import WasmBackend.Link.Resolve
import WasmBackend.Lower.Module
import WasmBackend.Symbols.Extract

/-!
# Programs

A program is compiled from an entry module and the modules it imports from directly. Their constant
data lies one after the other in memory, in the order in which they were loaded; their texts are
generated in the order of their names, with one supply of labels for all.
-/

namespace WasmBackend

inductive ProgramError where
  | load (e : LoadError)
  | compile (e : CompileError)
  deriving DecidableEq, Repr

/-- The texts of a program's modules, in ascending order of their names. -/
structure Program where
  entry : String
  modules : List (String × String)
  deriving DecidableEq, Repr

/-- The modules that have to be loaded besides the entry. -/
def siblings (catalog : Catalog) (entry : String) (m : Module) : List String :=
  m.importSources.filter fun source => source != entry && !catalog.contains source

section

variable {m : Type → Type} [Monad m] (load : String → m (Except LoadError Module))

/-- Loads modules in order, up to the first that fails. -/
def loadAll : List String → m (Except LoadError (List Module))
  | [] => pure (.ok [])
  | name :: rest => do
    match ← load name with
    | .error e => return .error e
    | .ok first =>
      match ← loadAll rest with
      | .error e => return .error e
      | .ok others => return .ok (first :: others)

/-- The entry module and the modules it imports from. -/
def loadWorkingSet (catalog : Catalog) (entry : String) : m (Except LoadError (List Module)) := do
  match ← load entry with
  | .error e => return .error e
  | .ok first =>
    match ← loadAll load (siblings catalog entry first) with
    | .error e => return .error e
    | .ok others => return .ok (first :: others)

end

/-- Extracts modules, each with its data after that of the one before. -/
def extractAll (base : Nat) : List Module → Compiled (List ModuleInfo)
  | [] => .ok []
  | m :: rest => do
    let info ← m.extract base
    return info :: (← extractAll info.dataEnd rest)

/-- The module texts, in order. Each module is lowered on an empty stack of frames. -/
def emitAll (memory : Wat.MemoryImport) (linked : List ModuleInfo) (labels : LabelSupply) :
    List Module → Compiled (List (String × String))
  | [] => .ok []
  | m :: rest =>
    match linked.find? (fun info => info.name == m.name) with
    | none => .error (.missingModule m.name)
    | some info =>
      match Lower.lowerModule memory m.arena info { labels } with
      | .error e _ => .error e
      | .ok wat s => do return (m.name, wat.text) :: (← emitAll memory linked s.labels rest)

/-- Modules in ascending order of their names. -/
def sortByName (modules : List Module) : List Module :=
  modules.mergeSort fun a b => decide (a.name ≤ b.name)

/-- The module texts of a working set. -/
def compileModules (catalog : Catalog) (base : Nat) (memory : Wat.MemoryImport)
    (modules : List Module) : Compiled (List (String × String)) := do
  let linked ← link (← extractAll base modules) catalog
  emitAll memory linked {} (sortByName modules)

/-- Compiles a program. -/
def compile {m : Type → Type} [Monad m] (load : String → m (Except LoadError Module))
    (catalog : Catalog) (base : Nat) (memory : Wat.MemoryImport) (entry : String) :
    m (Except ProgramError Program) := do
  match ← loadWorkingSet load catalog entry with
  | .error e => return .error (.load e)
  | .ok modules =>
    match compileModules catalog base memory modules with
    | .error e => return .error (.compile e)
    | .ok texts => return .ok ⟨entry, texts⟩

end WasmBackend
