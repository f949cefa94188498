import WasmBackend.Link.Catalog

/-!
# Linking

Every unresolved import gets the descriptor under its name in the export table of the module it
names: a catalog module if there is one of that name, else a module of the set being linked.
Imports that are resolved already stay as they are, and nothing else changes.
-/

namespace WasmBackend

/-- The first name that occurs again later in the list. -/
def firstRepeated? (seen : List String) : List String → Option String
  | [] => none
  | name :: rest => if seen.contains name then some name else firstRepeated? (name :: seen) rest

namespace Linker

/-- The descriptor that an import asks for. -/
def lookup (catalog : Catalog) (modules : List ModuleInfo) (i : ImportEntry) :
    Compiled Descriptor :=
  match catalog.get? i.source with
  | some stdlib =>
    match stdlib.exports.get? i.name with
    | some d => .ok d
    | none => .error (.unknownStdlibExport i.source i.name)
  | none =>
    match modules.find? (fun m => m.name == i.source) with
    | none => .error (.missingModule i.source)
    | some m =>
      match m.exports.get? i.name with
      | some d => .ok d
      | none => .error (.unknownExport i.source i.name)

/-- Resolves one entry of a module's import table. -/
def resolveEntry (catalog : Catalog) (modules : List ModuleInfo) (name : String)
    (entry : String × ImportEntry) : Compiled (String × ImportEntry) :=
  if entry.2.isResolved then .ok entry
  else
    match lookup catalog modules entry.2 with
    | .ok d => .ok (entry.1, entry.2.resolve d)
    | .error e => .error (.link name entry.1 e)

/-- Resolves the imports of a module. -/
def resolveModule (catalog : Catalog) (modules : List ModuleInfo) (m : ModuleInfo) :
    Compiled ModuleInfo := do
  let entries ← m.imports.entries.mapM (resolveEntry catalog modules m.name)
  return { m with imports := ⟨entries⟩ }

/-- Resolves the modules after those that are done, in place: each sees the others as they are by
then. -/
def resolveAll (catalog : Catalog) (done : List ModuleInfo) :
    List ModuleInfo → Compiled (List ModuleInfo)
  | [] => .ok done
  | m :: rest => do
    let resolved ← resolveModule catalog (done ++ m :: rest) m
    resolveAll catalog (done ++ [resolved]) rest

end Linker

/-- Links modules with pairwise different names against each other and a catalog. -/
def link (modules : List ModuleInfo) (catalog : Catalog) : Compiled (List ModuleInfo) :=
  match firstRepeated? [] (modules.map ModuleInfo.name) with
  | some name => .error (.duplicateDefinition .moduleName name)
  | none => Linker.resolveAll catalog [] modules

end WasmBackend
