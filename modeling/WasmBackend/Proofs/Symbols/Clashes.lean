import WasmBackend.Proofs.Symbols.Declarations

/-!
# Declarations that clash

Two declarations of a module clash if they want the same place (`Module.Clash`): the same name in
one table, the same name among the exports, a member of a struct twice, or an imported name that is
a function or a global as well. A struct may share its name with anything but a struct, and a
function with a global.

A module with a clash has no tables, and the converse holds up to two faults that are not about
names: the layout of a struct, and the initialiser of a global (`Module.declarations_ok_iff`). The
error says which. The declarations are gone through by loops, and the loop that fails has succeeded
up to the declaration at fault, so the tables at that point list what came before it.
-/

namespace WasmBackend

open Compiled

/-! ## Names -/

/-- The exported names among some declarations. -/
def exportedAmong {δ : Type} (exported : δ → Bool) (name : δ → String) (decls : List δ) :
    List String :=
  (decls.filter exported).map name

/-- An exported declaration with a name that was exported before it. -/
theorem duplicate_exportedAmong {δ : Type} {exported : δ → Bool} {name : δ → String}
    (before : List String) {done rest : List δ} (decl : δ) {after : List String}
    (hexported : exported decl = true)
    (h : name decl ∈ before ++ exportedAmong exported name done) :
    List.Duplicate (name decl)
      (before ++ exportedAmong exported name (done ++ decl :: rest) ++ after) := by
  have hsplit : before ++ exportedAmong exported name (done ++ decl :: rest) ++ after =
      before ++ exportedAmong exported name done ++
        name decl :: (exportedAmong exported name rest ++ after) := by
    simp [exportedAmong, hexported]
  rw [hsplit]
  exact duplicate_of_mem h

namespace Module

def structNames (m : Module) : List String := m.structDecls.map StructDecl.name

def functionNames (m : Module) : List String := m.functionDecls.map fun decl => decl.2.name

def globalNames (m : Module) : List String := m.letDecls.map LetDecl.name

/-- The names of what is exported: structs, then functions, then globals. -/
def exportedNames (m : Module) : List String :=
  exportedAmong StructDecl.exported StructDecl.name m.structDecls ++
    exportedAmong (fun decl => decl.2.exported) (fun decl => decl.2.name) m.functionDecls ++
      exportedAmong LetDecl.exported LetDecl.name m.letDecls

/-- Something is declared twice. -/
inductive Clash (m : Module) : SymbolKind → String → Prop
  | struct {name : String} (h : List.Duplicate name m.structNames) : Clash m .struct name
  | member {decl : StructDecl} {field : String} (hdecl : decl ∈ m.structDecls)
      (h : List.Duplicate field (decl.fields.map Binding.name)) :
      Clash m .member (decl.name ++ "." ++ field)
  | function {name : String} (h : List.Duplicate name m.functionNames) : Clash m .function name
  | imported {name : String} (h : List.Duplicate name (m.importedNames.map Prod.snd)) :
      Clash m .imported name
  | importedFunction {name : String} (himport : name ∈ m.importedNames.map Prod.snd)
      (hfunction : name ∈ m.functionNames) : Clash m .imported name
  | global {name : String} (h : List.Duplicate name m.globalNames) : Clash m .globalVar name
  | importedGlobal {name : String} (hglobal : name ∈ m.globalNames)
      (himport : name ∈ m.importedNames.map Prod.snd) : Clash m .globalVar name
  | exported {name : String} (h : List.Duplicate name m.exportedNames) : Clash m .exported name

end Module

/-! ## The keys of the tables -/

/-- The exported names among some declarations are those that their entries publish. -/
theorem exports_of_adds {δ α : Type} {R : δ → String × α → Prop} {name : δ → String}
    {exported : δ → Bool} (shown : α → Bool) (describe : α → Descriptor)
    (hadds : ∀ decl e, R decl e → e.1 = name decl ∧ shown e.2 = exported decl) {decls : List δ}
    {added : List (String × α)} (h : List.Forall₂ R decls added) :
    (added.flatMap fun e => Descriptor.entry (shown e.2) e.1 (describe e.2)).map Prod.fst =
      exportedAmong exported name decls := by
  induction h with
  | nil => rfl
  | @cons decl e decls added hR _ ih =>
    obtain ⟨hname, hshown⟩ := hadds decl e hR
    rw [List.flatMap_cons, List.map_append, ih, hname, hshown]
    cases hcase : exported decl <;> simp [Descriptor.entry, exportedAmong, hcase]

theorem structs_exportEntry {decls : List StructDecl} {added : List (String × StructLayout)}
    (h : List.Forall₂ StructDecl.Adds decls added) :
    (added.flatMap StructLayout.exportEntry).map Prod.fst =
      exportedAmong StructDecl.exported StructDecl.name decls :=
  exports_of_adds StructLayout.exported .struct
    (fun _ _ h => ⟨h.1, StructLayout.ofFields_exported h.2⟩) h

theorem functions_exportEntry (decls : List (StmtId × FunctionDecl)) :
    ((decls.map fun decl => decl.2.entry decl.1).flatMap FunctionEntry.exportEntry).map Prod.fst =
      exportedAmong (fun decl => decl.2.exported) (fun decl => decl.2.name) decls := by
  have hadds : List.Forall₂ (fun decl e => e = decl.2.entry decl.1) decls
      (decls.map fun decl => decl.2.entry decl.1) := by
    simp [List.forall₂_map_right_iff, List.forall₂_same]
  refine exports_of_adds FunctionEntry.exported (fun f => .function f.signature) ?_ hadds
  rintro decl e rfl
  exact ⟨rfl, rfl⟩

theorem globals_exportEntry {arena : Arena} {decls : List LetDecl}
    {added : List (String × GlobalEntry)} (h : List.Forall₂ (LetDecl.Adds arena) decls added) :
    (added.flatMap GlobalEntry.exportEntry).map Prod.fst =
      exportedAmong LetDecl.exported LetDecl.name decls :=
  exports_of_adds GlobalEntry.exported (fun g => .global g.ty g.storage.isMemory)
    (fun _ _ h => ⟨h.name, h.exported⟩) h

namespace ModuleInfo

section

variable (info : ModuleInfo)

/-- What is known after some structs, as far as names go. -/
theorem withStructs_keys {decls : List StructDecl} {added : List (String × StructLayout)}
    (h : List.Forall₂ StructDecl.Adds decls added) :
    (info.withStructs added).structs.keys = info.structs.keys ++ decls.map StructDecl.name ∧
      (info.withStructs added).exports.keys =
        info.exports.keys ++ exportedAmong StructDecl.exported StructDecl.name decls := by
  have hkeys : added.map Prod.fst = decls.map StructDecl.name :=
    map_eq_of_forall₂ h.flip fun _ _ h => h.1
  rw [← hkeys, ← structs_exportEntry h]
  exact ⟨Table.keys_extend _ _, Table.keys_extend _ _⟩

theorem withFunctions_keys (decls : List (StmtId × FunctionDecl)) :
    (info.withFunctions (decls.map fun decl => decl.2.entry decl.1)).functions.keys =
        info.functions.keys ++ decls.map (fun decl => decl.2.name) ∧
      (info.withFunctions (decls.map fun decl => decl.2.entry decl.1)).exports.keys =
        info.exports.keys ++
          exportedAmong (fun decl => decl.2.exported) (fun decl => decl.2.name) decls := by
  rw [← functions_exportEntry]
  refine ⟨?_, Table.keys_extend _ _⟩
  simp [withFunctions, FunctionDecl.entry]

theorem withImports_keys (names : List (String × String)) :
    (info.withImports (names.map fun name => ImportEntry.unlinked name.1 name.2)).imports.keys =
      info.imports.keys ++ names.map Prod.snd := by
  simp [withImports, ImportEntry.unlinked]

theorem withGlobals_keys {arena : Arena} {decls : List LetDecl}
    {added : List (String × GlobalEntry)} (h : List.Forall₂ (LetDecl.Adds arena) decls added) :
    (info.withGlobals added).globals.keys = info.globals.keys ++ decls.map LetDecl.name ∧
      (info.withGlobals added).exports.keys =
        info.exports.keys ++ exportedAmong LetDecl.exported LetDecl.name decls := by
  have hkeys : added.map Prod.fst = decls.map LetDecl.name :=
    map_eq_of_forall₂ h.flip fun _ _ h => h.name
  rw [← hkeys, ← globals_exportEntry h]
  exact ⟨Table.keys_extend _ _, Table.keys_extend _ _⟩

end

end ModuleInfo

/-! ## The whole module -/

namespace Module

variable {m : Module} {info : ModuleInfo} {base : Nat} {e : CompileError}

/-- Why declarations cannot be collected. -/
inductive Fault (m : Module) : CompileError → Prop
  | clash {kind : SymbolKind} {name : String} (h : m.Clash kind name) :
      Fault m (.duplicateDefinition kind name)
  | layout {decl : StructDecl} {e : CompileError} (hdecl : decl ∈ m.structDecls)
      (h : StructLayout.ofFields decl.name decl.fields decl.exported = .error e) : Fault m e
  | shape {decl : LetDecl} {e : CompileError} (hdecl : decl ∈ m.letDecls)
      (h : globalShape m.arena decl = .error e) : Fault m e

/-- Structs are collected into empty tables. -/
theorem structs_fault (hstructs : info.structs.keys = []) (hexports : info.exports.keys = [])
    (h : m.structDecls.foldlM ModuleInfo.addStruct info = .error e) : m.Fault e := by
  obtain ⟨done, decl, rest, info', hdecls, hdone, hstep⟩ := foldlM_error h
  obtain ⟨added, hadds, rfl⟩ := addStructs_ok hdone
  obtain ⟨hkeys, hshown⟩ := ModuleInfo.withStructs_keys info hadds
  rw [ModuleInfo.addStruct_eq] at hstep
  obtain hlayout | ⟨layout, -, hstep⟩ := bind_error.mp hstep
  · exact .layout (by simp [hdecls]) hlayout
  simp only [ite_error_error] at hstep
  obtain ⟨⟨hexported, hmem⟩, rfl⟩ | ⟨-, ⟨hmem, rfl⟩ | ⟨-, ⟨⟩⟩⟩ := hstep
  · rw [hshown, hexports, List.nil_append] at hmem
    refine .clash (.exported ?_)
    rw [exportedNames, hdecls, List.append_assoc]
    exact duplicate_exportedAmong [] decl hexported hmem
  · rw [hkeys, hstructs, List.nil_append] at hmem
    refine .clash (.struct ?_)
    rw [structNames, hdecls, List.map_append, List.map_cons]
    exact duplicate_of_mem hmem

theorem functions_fault (hfunctions : info.functions.keys = [])
    (hexports : info.exports.keys =
      exportedAmong StructDecl.exported StructDecl.name m.structDecls)
    (h : m.functionDecls.foldlM (fun info (id, decl) => info.addFunction id decl) info =
      .error e) : m.Fault e := by
  obtain ⟨done, ⟨id, decl⟩, rest, info', hdecls, hdone, hstep⟩ := foldlM_error h
  obtain rfl := addFunctions_ok hdone
  obtain ⟨hkeys, hshown⟩ := ModuleInfo.withFunctions_keys info done
  simp only [ModuleInfo.addFunction_eq, ite_error_error] at hstep
  obtain ⟨hmem, rfl⟩ | ⟨-, ⟨⟨hexported, hmem⟩, rfl⟩ | ⟨-, ⟨⟩⟩⟩ := hstep
  · rw [hkeys, hfunctions, List.nil_append] at hmem
    refine .clash (.function ?_)
    rw [functionNames, hdecls, List.map_append, List.map_cons]
    exact duplicate_of_mem hmem
  · rw [hshown, hexports] at hmem
    refine .clash (.exported ?_)
    rw [exportedNames, hdecls]
    exact duplicate_exportedAmong _ (id, decl) hexported hmem

theorem imports_fault (himports : info.imports.keys = [])
    (hfunctions : info.functions.keys = m.functionNames)
    (h : m.importedNames.foldlM (fun info (source, name) => info.addImport source name) info =
      .error e) : m.Fault e := by
  obtain ⟨done, ⟨source, name⟩, rest, info', hnames, hdone, hstep⟩ := foldlM_error h
  obtain rfl := addImports_ok hdone
  have hkeys := ModuleInfo.withImports_keys info done
  simp only [ModuleInfo.addImport_eq, ite_error_error] at hstep
  obtain ⟨hmem | hmem, rfl⟩ | ⟨-, ⟨⟩⟩ := hstep
  · refine .clash (.importedFunction ?_ (hfunctions ▸ hmem))
    simp [hnames]
  · rw [hkeys, himports, List.nil_append] at hmem
    refine .clash (.imported ?_)
    rw [hnames, List.map_append, List.map_cons]
    exact duplicate_of_mem hmem

theorem globals_fault (hglobals : info.globals.keys = [])
    (himports : info.imports.keys = m.importedNames.map Prod.snd)
    (hexports : info.exports.keys =
      exportedAmong StructDecl.exported StructDecl.name m.structDecls ++
        exportedAmong (fun decl => decl.2.exported) (fun decl => decl.2.name) m.functionDecls)
    (h : m.letDecls.foldlM (ModuleInfo.addGlobal m.arena) info = .error e) : m.Fault e := by
  obtain ⟨done, decl, rest, info', hdecls, hdone, hstep⟩ := foldlM_error h
  obtain ⟨added, hadds, rfl⟩ := addGlobals_ok hdone
  obtain ⟨hkeys, hshown⟩ := ModuleInfo.withGlobals_keys info hadds
  simp only [ModuleInfo.addGlobal_eq, ite_error_error, bind_error] at hstep
  obtain ⟨hmem, rfl⟩ | ⟨-, hshape | ⟨shape, -, hstep⟩⟩ := hstep
  · refine .clash (.importedGlobal ?_ (himports ▸ hmem))
    simp [globalNames, hdecls]
  · exact .shape (by simp [hdecls]) hshape
  obtain ⟨⟨hexported, hmem⟩, rfl⟩ | ⟨-, ⟨hmem, rfl⟩ | ⟨-, ⟨⟩⟩⟩ := hstep
  · rw [hshown, hexports] at hmem
    refine .clash (.exported ?_)
    rw [exportedNames, hdecls, ← List.append_nil (_ ++ _)]
    exact duplicate_exportedAmong _ decl hexported hmem
  · rw [hkeys, hglobals, List.nil_append] at hmem
    refine .clash (.global ?_)
    rw [globalNames, hdecls, List.map_append, List.map_cons]
    exact duplicate_of_mem hmem

theorem declarations_error (h : m.declarations base = .error e) : m.Fault e := by
  -- What a loop finds in the tables is what the loops before it have put there.
  unfold declarations at h
  simp only [foldlM_importedNames] at h
  obtain h | ⟨structs, hstructs, h⟩ := bind_error.mp h
  · exact structs_fault rfl rfl h
  obtain ⟨layouts, hlayouts, rfl⟩ := addStructs_ok hstructs
  have hstructs := (ModuleInfo.withStructs_keys (.empty m.name base) hlayouts).2
  obtain h | ⟨functions, hfunctions, h⟩ := bind_error.mp h
  · exact functions_fault rfl hstructs h
  obtain rfl := addFunctions_ok hfunctions
  obtain ⟨hfunctions, hexports⟩ := ModuleInfo.withFunctions_keys
    ((ModuleInfo.empty m.name base).withStructs layouts) m.functionDecls
  obtain h | ⟨imports, himports, h⟩ := bind_error.mp h
  · exact imports_fault rfl hfunctions h
  obtain rfl := addImports_ok himports
  refine globals_fault rfl ?_ ?_ h
  · exact ModuleInfo.withImports_keys _ m.importedNames
  · exact hexports.trans (congrArg (· ++ _) hstructs)

end Module

/-! ## Tables without clashes -/

namespace ModuleInfo

variable {m : Module} {info : ModuleInfo}

theorem Records.structs_keys (h : info.Records m) : info.structs.keys = m.structNames :=
  map_eq_of_forall₂ h.structs.flip fun _ _ hadds => hadds.1

theorem Records.functions_keys (h : info.Records m) : info.functions.keys = m.functionNames := by
  rw [Table.keys, h.functions]
  exact List.map_map

theorem Records.imports_keys (h : info.Records m) :
    info.imports.keys = m.importedNames.map Prod.snd := by
  rw [Table.keys, h.imports]
  exact List.map_map

theorem Records.globals_keys (h : info.Records m) : info.globals.keys = m.globalNames :=
  map_eq_of_forall₂ h.globals.flip fun _ _ hadds => hadds.name

theorem Records.exports_keys (h : info.Records m) : info.exports.keys = m.exportedNames := by
  rw [Table.keys, h.exports, published, List.map_append, List.map_append, Module.exportedNames,
    structs_exportEntry h.structs, globals_exportEntry h.globals, h.functions]
  exact congrArg (_ ++ · ++ _) (functions_exportEntry m.functionDecls)

theorem Records.exists_layout (h : info.Records m) {decl : StructDecl}
    (hdecl : decl ∈ m.structDecls) :
    ∃ layout, StructLayout.ofFields decl.name decl.fields decl.exported = .ok layout := by
  obtain ⟨e, -, hadds⟩ := exists_of_forall₂ h.structs hdecl
  exact ⟨e.2, hadds.2⟩

theorem Records.exists_shape (h : info.Records m) {decl : LetDecl} (hdecl : decl ∈ m.letDecls) :
    ∃ shape, globalShape m.arena decl = .ok shape := by
  obtain ⟨e, -, hadds⟩ := exists_of_forall₂ h.globals hdecl
  obtain ⟨storage, hshape, -⟩ := hadds.shape
  exact ⟨_, hshape⟩

theorem Records.not_clash (h : info.Records m) (hdistinct : info.Distinct) {kind : SymbolKind}
    {name : String} : ¬m.Clash kind name := by
  intro hclash
  cases hclash with
  | struct hname => exact hname.not_nodup (h.structs_keys ▸ hdistinct.structs)
  | member hdecl hname =>
    obtain ⟨layout, hlayout⟩ := h.exists_layout hdecl
    exact hname.not_nodup (StructLayout.ofFields_eq_ok.mp hlayout).1
  | function hname => exact hname.not_nodup (h.functions_keys ▸ hdistinct.functions)
  | imported hname => exact hname.not_nodup (h.imports_keys ▸ hdistinct.imports)
  | importedFunction himport hfunction =>
    rw [← h.imports_keys] at himport
    rw [← h.functions_keys] at hfunction
    exact hdistinct.imported_not_function _ himport hfunction
  | global hname => exact hname.not_nodup (h.globals_keys ▸ hdistinct.globals)
  | importedGlobal hglobal himport =>
    rw [← h.imports_keys] at himport
    rw [← h.globals_keys] at hglobal
    exact hdistinct.global_not_imported _ hglobal himport
  | exported hname => exact hname.not_nodup (h.exports_keys ▸ hdistinct.exports)

end ModuleInfo

namespace Module

/-- Declarations can be collected if no two clash, each struct has a layout, and the initialiser of
each global says where it lives. -/
theorem declarations_ok_iff (m : Module) (base : Nat) :
    (∃ info, m.declarations base = .ok info) ↔
      (∀ kind name, ¬m.Clash kind name) ∧
      (∀ decl ∈ m.structDecls, ∃ layout,
        StructLayout.ofFields decl.name decl.fields decl.exported = .ok layout) ∧
      ∀ decl ∈ m.letDecls, ∃ shape, globalShape m.arena decl = .ok shape := by
  constructor
  · rintro ⟨info, h⟩
    have hrecords := declarations_records h
    refine ⟨fun _ _ => hrecords.not_clash (declarations_distinct h),
      fun _ hdecl => hrecords.exists_layout hdecl, fun _ hdecl => hrecords.exists_shape hdecl⟩
  · rintro ⟨hclash, hlayouts, hshapes⟩
    cases h : m.declarations base with
    | ok info => exact ⟨info, rfl⟩
    | error e =>
      cases declarations_error h with
      | clash hname => exact absurd hname (hclash _ _)
      | layout hdecl hlayout =>
        obtain ⟨layout, hok⟩ := hlayouts _ hdecl
        rw [hok] at hlayout
        cases hlayout
      | shape hdecl hshape =>
        obtain ⟨shape, hok⟩ := hshapes _ hdecl
        rw [hok] at hshape
        cases hshape

end Module

end WasmBackend
