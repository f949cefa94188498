import WasmBackend.Proofs.Symbols.Layouts
import WasmBackend.Symbols.Extract

/-!
# What extraction records

The tables of an extracted module, entry by entry. Every kind of declaration is collected by a fold
that only ever adds at the end, so each table is the list of the module's declarations of its kind,
in item order, and the export table is the list of those that are marked `export`: structs first,
then functions, then globals.

The clash checks leave their trace as facts about keys. Each table has different keys. Imports do
not share a name with functions, and globals do not share one with imports; nothing is checked
between functions and globals, or between structs and anything else. Places are left out: literals
get them later.
-/

namespace WasmBackend

open Compiled

/-! ## Lists -/

theorem Compiled.mapM_ok {α β : Type} {f : α → Compiled β} {l : List α} {l' : List β} :
    l.mapM f = .ok l' ↔ List.Forall₂ (fun a b => f a = .ok b) l l' := by
  induction l generalizing l' with
  | nil =>
    rw [List.mapM_nil, pure_ok, List.forall₂_nil_left_iff, eq_comm]
  | cons a rest ih =>
    simp only [List.mapM_cons, bind_ok, pure_ok, List.forall₂_cons_left_iff, ih]
    constructor
    · rintro ⟨b, hb, bs, hbs, rfl⟩
      exact ⟨b, bs, hb, hbs, rfl⟩
    · rintro ⟨b, bs, hb, hbs, rfl⟩
      exact ⟨b, hb, bs, hbs, rfl⟩

/-- A fold whose steps each put one entry into a state puts in one entry for each element. -/
theorem Compiled.foldlM_puts {σ δ ε : Type} {step : σ → δ → Compiled σ} {p : σ → List ε → σ}
    {R : δ → ε → Prop} (hnil : ∀ s, p s [] = s) (happend : ∀ s a b, p (p s a) b = p s (a ++ b))
    (hstep : ∀ s d s', step s d = .ok s' → ∃ e, R d e ∧ s' = p s [e])
    {l : List δ} {s s' : σ} (h : l.foldlM step s = .ok s') :
    ∃ added, List.Forall₂ R l added ∧ s' = p s added := by
  induction l generalizing s with
  | nil =>
    cases h
    exact ⟨[], .nil, (hnil _).symm⟩
  | cons d rest ih =>
    obtain ⟨s₁, h₁, hrest⟩ := bind_ok.mp h
    obtain ⟨e, hadds, rfl⟩ := hstep s d s₁ h₁
    obtain ⟨added, hall, rfl⟩ := ih hrest
    exact ⟨e :: added, .cons hadds hall, happend s [e] added⟩

/-- The same when the entry is a function of the element. -/
theorem Compiled.foldlM_puts_map {σ δ ε : Type} {step : σ → δ → Compiled σ} {p : σ → List ε → σ}
    (f : δ → ε) (hnil : ∀ s, p s [] = s) (happend : ∀ s a b, p (p s a) b = p s (a ++ b))
    (hstep : ∀ s d s', step s d = .ok s' → s' = p s [f d])
    {l : List δ} {s s' : σ} (h : l.foldlM step s = .ok s') : s' = p s (l.map f) := by
  obtain ⟨added, hadds, rfl⟩ :=
    foldlM_puts (R := fun d e => f d = e) hnil happend
      (fun s d s' h => ⟨f d, rfl, hstep s d s' h⟩) h
  rw [← List.forall₂_map_left_iff (f := f), List.forall₂_eq_eq_eq] at hadds
  rw [hadds]

/-- A fold inside a fold is one fold over all the inner elements. -/
theorem Compiled.foldlM_nested {σ δ ε : Type} {inner : δ → List ε} {step : σ → ε → Compiled σ} :
    ∀ (l : List δ) (s : σ),
      l.foldlM (fun s d => (inner d).foldlM step s) s = (l.flatMap inner).foldlM step s
  | [], _ => rfl
  | d :: rest, s => by
    rw [List.flatMap_cons, List.foldlM_append, List.foldlM_cons]
    exact congrArg _ (funext fun s => foldlM_nested rest s)

/-! ## What is exported -/

/-- The entry of the export table that a declaration makes, if it is exported. -/
def Descriptor.entry (exported : Bool) (name : String) (d : Descriptor) :
    List (String × Descriptor) :=
  if exported then [(name, d)] else []

theorem Descriptor.mem_entry {exported : Bool} {name : String} {d : Descriptor}
    {e : String × Descriptor} :
    e ∈ Descriptor.entry exported name d ↔ exported = true ∧ e = (name, d) := by
  cases exported <;> simp [Descriptor.entry]

def StructLayout.exportEntry (e : String × StructLayout) : List (String × Descriptor) :=
  Descriptor.entry e.2.exported e.1 (.struct e.2)

def FunctionEntry.exportEntry (e : String × FunctionEntry) : List (String × Descriptor) :=
  Descriptor.entry e.2.exported e.1 (.function e.2.signature)

def GlobalEntry.exportEntry (e : String × GlobalEntry) : List (String × Descriptor) :=
  Descriptor.entry e.2.exported e.1 (.global e.2.ty e.2.storage.isMemory)

/-- The names that a table exports are those of its entries that are exported. -/
theorem map_exportEntry {α : Type} {l : List (String × α)} (exported : α → Bool)
    (describe : α → Descriptor) :
    (l.flatMap fun e => Descriptor.entry (exported e.2) e.1 (describe e.2)).map Prod.fst =
      (l.filter fun e => exported e.2).map Prod.fst := by
  induction l with
  | nil => rfl
  | cons e rest ih =>
    rw [List.flatMap_cons, List.map_append, ih, List.filter_cons]
    cases exported e.2 <;> simp [Descriptor.entry]

namespace ModuleInfo

/-- What the tables of a module say that it exports. -/
def published (m : ModuleInfo) : List (String × Descriptor) :=
  m.structs.entries.flatMap StructLayout.exportEntry ++
    m.functions.entries.flatMap FunctionEntry.exportEntry ++
      m.globals.entries.flatMap GlobalEntry.exportEntry

theorem mem_published {m : ModuleInfo} {name : String} {d : Descriptor} :
    (name, d) ∈ m.published ↔
      (∃ layout, (name, layout) ∈ m.structs.entries ∧ layout.exported = true ∧
        d = .struct layout) ∨
      (∃ f, (name, f) ∈ m.functions.entries ∧ f.exported = true ∧ d = .function f.signature) ∨
      ∃ g, (name, g) ∈ m.globals.entries ∧ g.exported = true ∧
        d = .global g.ty g.storage.isMemory := by
  simp only [published, List.mem_append, List.mem_flatMap, StructLayout.exportEntry,
    FunctionEntry.exportEntry, GlobalEntry.exportEntry, Descriptor.mem_entry, Prod.mk.injEq,
    Prod.exists, or_assoc]
  aesop

/-! ## One declaration -/

variable {m m' : ModuleInfo}

theorem addExport_eq (m : ModuleInfo) (name : String) (d : Descriptor) :
    m.addExport name d = if name ∈ m.exports.keys then .error (.duplicateDefinition .exported name)
      else .ok { m with exports := m.exports.extend [(name, d)] } := by
  by_cases h : name ∈ m.exports.keys <;> simp [addExport, Table.insert?_eq, h]

/-- Publishing a declaration, or not, as it says, and going on. -/
theorem publish_eq {α : Type} (m : ModuleInfo) (exported : Bool) (name : String) (d : Descriptor)
    (next : ModuleInfo → Compiled α) :
    (if exported then m.addExport name d >>= next else Except.ok m >>= next) =
      if exported = true ∧ name ∈ m.exports.keys then .error (.duplicateDefinition .exported name)
      else next { m with exports := m.exports.extend (Descriptor.entry exported name d) } := by
  cases exported with
  | false => simp [Descriptor.entry, ok_bind]
  | true =>
    simp only [if_true, addExport_eq, true_and, Descriptor.entry]
    split <;> rfl

/-- Adds structs, and exports those that say so. -/
def withStructs (m : ModuleInfo) (added : List (String × StructLayout)) : ModuleInfo :=
  { m with
    structs := m.structs.extend added
    exports := m.exports.extend (added.flatMap StructLayout.exportEntry) }

def withFunctions (m : ModuleInfo) (added : List (String × FunctionEntry)) : ModuleInfo :=
  { m with
    functions := m.functions.extend added
    exports := m.exports.extend (added.flatMap FunctionEntry.exportEntry) }

def withImports (m : ModuleInfo) (added : List (String × ImportEntry)) : ModuleInfo :=
  { m with imports := m.imports.extend added }

def withGlobals (m : ModuleInfo) (added : List (String × GlobalEntry)) : ModuleInfo :=
  { m with
    globals := m.globals.extend added
    exports := m.exports.extend (added.flatMap GlobalEntry.exportEntry) }

end ModuleInfo

/-- The entry that a struct declaration makes. -/
def StructDecl.Adds (decl : StructDecl) (e : String × StructLayout) : Prop :=
  e.1 = decl.name ∧ StructLayout.ofFields decl.name decl.fields decl.exported = .ok e.2

def FunctionDecl.signature (decl : FunctionDecl) : Signature :=
  ⟨decl.params.map Binding.ty, decl.result⟩

/-- The entry that a function declaration makes. -/
def FunctionDecl.entry (id : StmtId) (decl : FunctionDecl) : String × FunctionEntry :=
  (decl.name, ⟨decl.signature, decl.exported, id⟩)

/-- The entry that a global makes. Its address is known after the literals are placed, so the entry
is described up to where in memory it lives. -/
structure LetDecl.Adds (arena : Arena) (decl : LetDecl) (e : String × GlobalEntry) : Prop where
  name : e.1 = decl.name
  exported : e.2.exported = decl.exported
  init : e.2.init = decl.init
  shape : ∃ storage, globalShape arena decl = .ok (e.2.ty, storage) ∧
    storage.isMemory = e.2.storage.isMemory

/-- The entry that an imported name makes. -/
def ImportEntry.unlinked (source name : String) : String × ImportEntry := (name, { source, name })

namespace ModuleInfo

variable {m m' : ModuleInfo}

theorem addStruct_eq (m : ModuleInfo) (decl : StructDecl) :
    m.addStruct decl =
      StructLayout.ofFields decl.name decl.fields decl.exported >>= fun layout =>
        if decl.exported = true ∧ decl.name ∈ m.exports.keys then
          .error (.duplicateDefinition .exported decl.name)
        else if decl.name ∈ m.structs.keys then .error (.duplicateDefinition .struct decl.name)
        else .ok (m.withStructs [(decl.name, layout)]) := by
  unfold addStruct
  cases hlayout : StructLayout.ofFields decl.name decl.fields decl.exported with
  | error e => rfl
  | ok layout =>
    have hentry : StructLayout.exportEntry (decl.name, layout) =
        Descriptor.entry decl.exported decl.name (.struct layout) := by
      rw [StructLayout.exportEntry, StructLayout.ofFields_exported hlayout]
    refine (publish_eq m decl.exported decl.name (.struct layout) _).trans ?_
    rw [ok_bind]
    by_cases hname : decl.name ∈ m.structs.keys <;>
      simp [hname, Table.insert?_eq, withStructs, hentry]
    rfl

theorem addFunction_eq (m : ModuleInfo) (id : StmtId) (decl : FunctionDecl) :
    m.addFunction id decl =
      if decl.name ∈ m.functions.keys then .error (.duplicateDefinition .function decl.name)
      else if decl.exported = true ∧ decl.name ∈ m.exports.keys then
        .error (.duplicateDefinition .exported decl.name)
      else .ok (m.withFunctions [decl.entry id]) := by
  by_cases hname : decl.name ∈ m.functions.keys
  · simp [addFunction, Table.insert?_eq, hname]
  · simp only [addFunction, Table.insert?_eq, hname, ↓reduceIte]
    refine (publish_eq m decl.exported decl.name (.function decl.signature) _).trans ?_
    simp [withFunctions, FunctionEntry.exportEntry, FunctionDecl.entry]
    rfl

theorem addImport_eq (m : ModuleInfo) (source name : String) :
    m.addImport source name =
      if name ∈ m.functions.keys ∨ name ∈ m.imports.keys then
        .error (.duplicateDefinition .imported name)
      else .ok (m.withImports [ImportEntry.unlinked source name]) := by
  simp only [addImport, Table.contains_iff, Table.insert?_eq]
  by_cases hfunction : name ∈ m.functions.keys
  · simp [hfunction]
  · by_cases himport : name ∈ m.imports.keys <;>
      simp [hfunction, himport, withImports, ImportEntry.unlinked]

theorem addGlobal_eq (m : ModuleInfo) (arena : Arena) (decl : LetDecl) :
    m.addGlobal arena decl =
      if decl.name ∈ m.imports.keys then .error (.duplicateDefinition .globalVar decl.name)
      else globalShape arena decl >>= fun shape =>
        if decl.exported = true ∧ decl.name ∈ m.exports.keys then
          .error (.duplicateDefinition .exported decl.name)
        else if decl.name ∈ m.globals.keys then
          .error (.duplicateDefinition .globalVar decl.name)
        else .ok (m.withGlobals [(decl.name, ⟨shape.1, shape.2, decl.exported, decl.init⟩)]) := by
  simp only [addGlobal, Table.contains_iff]
  refine if_congr Iff.rfl rfl (congrArg _ (funext fun shape => ?_))
  refine (publish_eq m decl.exported decl.name (.global shape.1 shape.2.isMemory) _).trans ?_
  by_cases hname : decl.name ∈ m.globals.keys <;>
    simp [hname, Table.insert?_eq, withGlobals, GlobalEntry.exportEntry]
  rfl

theorem addStruct_ok {decl : StructDecl} (h : m.addStruct decl = .ok m') :
    ∃ layout, decl.Adds (decl.name, layout) ∧ m' = m.withStructs [(decl.name, layout)] ∧
      decl.name ∉ m.structs.keys ∧ (decl.exported = true → decl.name ∉ m.exports.keys) := by
  rw [addStruct_eq, bind_ok] at h
  obtain ⟨layout, hlayout, h⟩ := h
  simp only [ite_error_ok] at h
  obtain ⟨hexport, hfresh, ⟨⟩⟩ := h
  exact ⟨layout, ⟨rfl, hlayout⟩, rfl, hfresh, not_and.mp hexport⟩

theorem addFunction_ok {id : StmtId} {decl : FunctionDecl} (h : m.addFunction id decl = .ok m') :
    m' = m.withFunctions [decl.entry id] ∧ decl.name ∉ m.functions.keys ∧
      (decl.exported = true → decl.name ∉ m.exports.keys) := by
  simp only [addFunction_eq, ite_error_ok] at h
  obtain ⟨hfresh, hexport, ⟨⟩⟩ := h
  exact ⟨rfl, hfresh, not_and.mp hexport⟩

theorem addImport_ok {source name : String} (h : m.addImport source name = .ok m') :
    m' = m.withImports [ImportEntry.unlinked source name] ∧ name ∉ m.imports.keys ∧
      name ∉ m.functions.keys := by
  simp only [addImport_eq, ite_error_ok, not_or] at h
  obtain ⟨⟨hfunction, himport⟩, ⟨⟩⟩ := h
  exact ⟨rfl, himport, hfunction⟩

theorem addGlobal_ok {arena : Arena} {decl : LetDecl} (h : m.addGlobal arena decl = .ok m') :
    ∃ g, decl.Adds arena (decl.name, g) ∧ m' = m.withGlobals [(decl.name, g)] ∧
      decl.name ∉ m.globals.keys ∧ decl.name ∉ m.imports.keys ∧
        (decl.exported = true → decl.name ∉ m.exports.keys) := by
  simp only [addGlobal_eq, ite_error_ok, bind_ok] at h
  obtain ⟨himport, ⟨ty, storage⟩, hshape, hexport, hfresh, ⟨⟩⟩ := h
  exact ⟨_, ⟨rfl, rfl, rfl, storage, hshape, rfl⟩, rfl, hfresh, himport, not_and.mp hexport⟩

/-! ## Different keys -/

/-- What the clash checks make sure of. -/
structure Distinct (m : ModuleInfo) : Prop where
  structs : m.structs.keys.Nodup
  functions : m.functions.keys.Nodup
  imports : m.imports.keys.Nodup
  globals : m.globals.keys.Nodup
  exports : m.exports.keys.Nodup
  imported_not_function : ∀ name ∈ m.imports.keys, name ∉ m.functions.keys
  global_not_imported : ∀ name ∈ m.globals.keys, name ∉ m.imports.keys

theorem Distinct.empty (name : String) (base : Nat) : (ModuleInfo.empty name base).Distinct where
  structs := .nil
  functions := .nil
  imports := .nil
  globals := .nil
  exports := .nil
  imported_not_function := fun _ h => nomatch h
  global_not_imported := fun _ h => nomatch h

/-- Publishing a name that is free, or not publishing it, keeps exported names different. -/
theorem exports_nodup {exported : Bool} {name : String} {d : Descriptor}
    (hexports : m.exports.keys.Nodup) (hfresh : exported = true → name ∉ m.exports.keys) :
    (m.exports.extend (Descriptor.entry exported name d)).keys.Nodup := by
  cases exported with
  | false => simpa [Descriptor.entry] using hexports
  | true => exact Table.keys_extend_nodup d hexports (hfresh rfl)

theorem Distinct.addStruct {decl : StructDecl} (hm : m.Distinct) (h : m.addStruct decl = .ok m') :
    m'.Distinct := by
  obtain ⟨layout, ⟨-, hlayout⟩, rfl, hstruct, hexport⟩ := addStruct_ok h
  refine { hm with structs := Table.keys_extend_nodup layout hm.structs hstruct, exports := ?_ }
  rw [← StructLayout.ofFields_exported hlayout] at hexport
  simpa [withStructs, StructLayout.exportEntry] using exports_nodup hm.exports hexport

/-- Functions come before imports, so there is nothing yet for them to clash with. -/
theorem Distinct.addFunction {id : StmtId} {decl : FunctionDecl} (hm : m.Distinct)
    (himports : m.imports.entries = []) (h : m.addFunction id decl = .ok m') : m'.Distinct := by
  obtain ⟨rfl, hfunction, hexport⟩ := addFunction_ok h
  refine { hm with
    functions := Table.keys_extend_nodup _ hm.functions hfunction
    exports := ?_
    imported_not_function := ?_ }
  · simpa [withFunctions, FunctionEntry.exportEntry, FunctionDecl.entry]
      using exports_nodup hm.exports hexport
  · simp [withFunctions, Table.keys, himports]

/-- Imports come before globals. -/
theorem Distinct.addImport {source name : String} (hm : m.Distinct)
    (hglobals : m.globals.entries = []) (h : m.addImport source name = .ok m') : m'.Distinct := by
  obtain ⟨rfl, himport, hfunction⟩ := addImport_ok h
  refine { hm with
    imports := Table.keys_extend_nodup _ hm.imports himport
    imported_not_function := ?_
    global_not_imported := ?_ }
  · intro other hother
    rcases List.mem_append.mp (Table.keys_extend .. ▸ hother) with hold | hnew
    · exact hm.imported_not_function other hold
    · exact List.mem_singleton.mp hnew ▸ hfunction
  · simp [withImports, Table.keys, hglobals]

theorem Distinct.addGlobal {arena : Arena} {decl : LetDecl} (hm : m.Distinct)
    (h : m.addGlobal arena decl = .ok m') : m'.Distinct := by
  obtain ⟨g, hadds, rfl, hglobal, himport, hexport⟩ := addGlobal_ok h
  refine { hm with
    globals := Table.keys_extend_nodup g hm.globals hglobal
    exports := ?_
    global_not_imported := ?_ }
  · rw [← hadds.exported] at hexport
    simpa [withGlobals, GlobalEntry.exportEntry] using exports_nodup hm.exports hexport
  · intro other hother
    rcases List.mem_append.mp (Table.keys_extend .. ▸ hother) with hold | hnew
    · exact hm.global_not_imported other hold
    · exact List.mem_singleton.mp hnew ▸ himport

end ModuleInfo

/-! ## The whole module -/

/-- The imported names of a module with the modules they come from, in order. -/
def Module.importedNames (m : Module) : List (String × String) :=
  m.importDecls.flatMap fun decl => decl.names.map fun name => (decl.source, name)

/-- The tables list the declarations of the module, and nothing else. -/
structure ModuleInfo.Records (info : ModuleInfo) (m : Module) : Prop where
  name : info.name = m.name
  structs : List.Forall₂ StructDecl.Adds m.structDecls info.structs.entries
  functions : info.functions.entries = m.functionDecls.map fun (id, decl) => decl.entry id
  imports : info.imports.entries =
    m.importedNames.map fun (source, name) => ImportEntry.unlinked source name
  globals : List.Forall₂ (LetDecl.Adds m.arena) m.letDecls info.globals.entries
  exports : info.exports.entries = info.published

namespace Module

variable {m : Module} {info info' : ModuleInfo}

theorem addStructs_ok {decls : List StructDecl}
    (h : decls.foldlM ModuleInfo.addStruct info = .ok info') :
    ∃ added, List.Forall₂ StructDecl.Adds decls added ∧ info' = info.withStructs added := by
  refine foldlM_puts ?_ ?_ ?_ h
  · intro info
    simp [ModuleInfo.withStructs]
  · intro info a b
    simp [ModuleInfo.withStructs]
  · intro info decl info' h
    obtain ⟨layout, hadds, heq, -⟩ := ModuleInfo.addStruct_ok h
    exact ⟨_, hadds, heq⟩

theorem addFunctions_ok {decls : List (StmtId × FunctionDecl)}
    (h : decls.foldlM (fun info (id, decl) => info.addFunction id decl) info = .ok info') :
    info' = info.withFunctions (decls.map fun (id, decl) => decl.entry id) := by
  refine foldlM_puts_map _ ?_ ?_ ?_ h
  · intro info
    simp [ModuleInfo.withFunctions]
  · intro info a b
    simp [ModuleInfo.withFunctions]
  · intro info decl info' h
    exact (ModuleInfo.addFunction_ok h).1

theorem addImports_ok {names : List (String × String)}
    (h : names.foldlM (fun info (source, name) => info.addImport source name) info = .ok info') :
    info' = info.withImports
      (names.map fun (source, name) => ImportEntry.unlinked source name) := by
  refine foldlM_puts_map _ ?_ ?_ ?_ h
  · intro info
    simp [ModuleInfo.withImports]
  · intro info a b
    simp [ModuleInfo.withImports]
  · intro info decl info' h
    exact (ModuleInfo.addImport_ok h).1

theorem addGlobals_ok {arena : Arena} {decls : List LetDecl}
    (h : decls.foldlM (ModuleInfo.addGlobal arena) info = .ok info') :
    ∃ added, List.Forall₂ (LetDecl.Adds arena) decls added ∧ info' = info.withGlobals added := by
  refine foldlM_puts ?_ ?_ ?_ h
  · intro info
    simp [ModuleInfo.withGlobals]
  · intro info a b
    simp [ModuleInfo.withGlobals]
  · intro info decl info' h
    obtain ⟨g, hadds, heq, -⟩ := ModuleInfo.addGlobal_ok h
    exact ⟨_, hadds, heq⟩

/-- Imports are collected as one list of names. -/
theorem foldlM_importedNames (m : Module) (info : ModuleInfo) :
    m.importDecls.foldlM
        (fun info decl => decl.names.foldlM (ModuleInfo.addImport decl.source) info) info =
      m.importedNames.foldlM (fun info (source, name) => info.addImport source name) info := by
  rw [importedNames, ← foldlM_nested]
  simp only [List.foldlM_map]

/-- The four folds, with imports as one list of names. -/
theorem declarations_ok {base : Nat} (h : m.declarations base = .ok info) :
    ∃ structs functions imports,
      m.structDecls.foldlM ModuleInfo.addStruct (.empty m.name base) = .ok structs ∧
      m.functionDecls.foldlM (fun info (id, decl) => info.addFunction id decl) structs =
        .ok functions ∧
      m.importedNames.foldlM (fun info (source, name) => info.addImport source name) functions =
        .ok imports ∧
      m.letDecls.foldlM (ModuleInfo.addGlobal m.arena) imports = .ok info := by
  unfold declarations at h
  simp only [bind_ok] at h
  obtain ⟨structs, hstructs, functions, hfunctions, imports, himports, hglobals⟩ := h
  refine ⟨structs, functions, imports, hstructs, hfunctions, ?_, hglobals⟩
  rw [← himports, foldlM_importedNames]

/-- The declarations of a module, read off the tables. -/
theorem declarations_records {base : Nat} (h : m.declarations base = .ok info) :
    info.Records m := by
  obtain ⟨structs, functions, imports, hstructs, hfunctions, himports, hglobals⟩ :=
    declarations_ok h
  obtain ⟨layouts, hlayouts, rfl⟩ := addStructs_ok hstructs
  obtain rfl := addFunctions_ok hfunctions
  obtain rfl := addImports_ok himports
  obtain ⟨globals, hall, rfl⟩ := addGlobals_ok hglobals
  exact
    { name := rfl
      structs := hlayouts
      functions := rfl
      imports := rfl
      globals := hall
      exports := rfl }

theorem declarations_distinct {base : Nat} (h : m.declarations base = .ok info) :
    info.Distinct := by
  obtain ⟨structs, functions, imports, hstructs, hfunctions, himports, hglobals⟩ :=
    declarations_ok h
  -- Each fold keeps the invariant together with the tables that later folds fill staying empty.
  let Early (i : ModuleInfo) : Prop :=
    i.Distinct ∧ i.imports.entries = [] ∧ i.globals.entries = []
  have h₁ : Early structs := by
    refine foldlM_invariant (P := Early) ?_ ⟨.empty m.name base, rfl, rfl⟩ hstructs
    rintro info decl info' ⟨hinfo, hi, hg⟩ hadd
    refine ⟨hinfo.addStruct hadd, ?_⟩
    obtain ⟨_, _, rfl, _⟩ := ModuleInfo.addStruct_ok hadd
    exact ⟨hi, hg⟩
  have h₂ : Early functions := by
    refine foldlM_invariant (P := Early) ?_ h₁ hfunctions
    rintro info ⟨id, decl⟩ info' ⟨hinfo, hi, hg⟩ hadd
    refine ⟨hinfo.addFunction hi hadd, ?_⟩
    obtain ⟨rfl, _⟩ := ModuleInfo.addFunction_ok hadd
    exact ⟨hi, hg⟩
  have h₃ : imports.Distinct ∧ imports.globals.entries = [] := by
    refine foldlM_invariant (P := fun i => i.Distinct ∧ i.globals.entries = []) ?_
      ⟨h₂.1, h₂.2.2⟩ himports
    rintro info ⟨source, name⟩ info' ⟨hinfo, hg⟩ hadd
    refine ⟨hinfo.addImport hg hadd, ?_⟩
    obtain ⟨rfl, _⟩ := ModuleInfo.addImport_ok hadd
    exact hg
  exact foldlM_invariant (fun _ _ _ hinfo hadd => hinfo.addGlobal hadd) h₃.1 hglobals

end Module

/-! ## Placed globals -/

namespace ModuleInfo

variable {info : ModuleInfo}

/-- Where a global lives once the literals are placed. -/
def placed (info : ModuleInfo) (g : GlobalEntry) : GlobalEntry :=
  match g.storage, info.literals.get? g.init with
  | .memory _, some address => { g with storage := .memory address }
  | _, _ => g

theorem placeGlobals_eq (info : ModuleInfo) :
    info.placeGlobals = { info with globals := info.globals.map info.placed } := rfl

/-- Placing moves a global within memory, and changes nothing else about it. -/
theorem placed_cases (info : ModuleInfo) (g : GlobalEntry) :
    ∃ storage, info.placed g = { g with storage } ∧ storage.isMemory = g.storage.isMemory := by
  unfold placed
  split
  · next hstorage _ => exact ⟨_, rfl, by rw [hstorage]; rfl⟩
  · exact ⟨g.storage, rfl, rfl⟩

theorem exportEntry_placed (info : ModuleInfo) (name : String) (g : GlobalEntry) :
    GlobalEntry.exportEntry (name, info.placed g) = GlobalEntry.exportEntry (name, g) := by
  obtain ⟨storage, heq, hmemory⟩ := info.placed_cases g
  simp [GlobalEntry.exportEntry, heq, hmemory]

theorem published_placeGlobals (info : ModuleInfo) :
    info.placeGlobals.published = info.published := by
  simp only [published, placeGlobals_eq, Table.map, List.flatMap_map, exportEntry_placed]

theorem Records.placeGlobals {m : Module} (h : info.Records m) : info.placeGlobals.Records m where
  name := h.name
  structs := h.structs
  functions := h.functions
  imports := h.imports
  globals := by
    simp only [placeGlobals_eq, Table.map, List.forall₂_map_right_iff]
    refine h.globals.imp fun decl e hadds => ?_
    obtain ⟨place, heq, hmemory⟩ := info.placed_cases e.2
    obtain ⟨storage, hshape, hstorage⟩ := hadds.shape
    exact
      { name := hadds.name
        exported := by rw [heq]; exact hadds.exported
        init := by rw [heq]; exact hadds.init
        shape := ⟨storage, by rw [heq]; exact hshape, by rw [heq, hstorage, hmemory]⟩ }
  exports := h.exports.trans info.published_placeGlobals.symm

theorem Distinct.placeGlobals (h : info.Distinct) : info.placeGlobals.Distinct :=
  { h with
    globals := by rw [placeGlobals_eq, Table.keys_map]; exact h.globals
    global_not_imported := by rw [placeGlobals_eq, Table.keys_map]; exact h.global_not_imported }

end ModuleInfo

/-! ## Extraction -/

namespace Module

variable {m : Module} {info : ModuleInfo} {base : Nat}

/-- Extraction collects, then places literals, then globals. -/
theorem extract_ok (h : m.extract base = .ok info) :
    ∃ declared placed, m.declarations base = .ok declared ∧
      (Placement.visitor m.arena declared.structs).visitModule m { data := declared.data } =
        .ok ((), placed) ∧
      info =
        { declared with data := placed.data, literals := placed.literals }.placeGlobals := by
  unfold extract at h
  simp only [bind_ok, pure_ok] at h
  obtain ⟨declared, hdeclared, ⟨⟨⟩, placed⟩, hplaced, rfl⟩ := h
  exact ⟨declared, placed, hdeclared, hplaced, rfl⟩

theorem extract_records (h : m.extract base = .ok info) : info.Records m := by
  obtain ⟨declared, placed, hdeclared, -, rfl⟩ := extract_ok h
  have hrecords := declarations_records hdeclared
  exact ModuleInfo.Records.placeGlobals { hrecords with }

theorem extract_distinct (h : m.extract base = .ok info) : info.Distinct := by
  obtain ⟨declared, placed, hdeclared, -, rfl⟩ := extract_ok h
  have hdistinct := declarations_distinct hdeclared
  exact ModuleInfo.Distinct.placeGlobals { hdistinct with }

end Module

/-- Is the global a literal in constant data? -/
def LetDecl.inMemory (arena : Arena) (decl : LetDecl) : Bool :=
  (arena.expr? decl.init).any Expr.isDataLiteral

/-- A global is kept in memory exactly if its initialiser is a literal in constant data. -/
theorem globalShape_isMemory {arena : Arena} {decl : LetDecl} {ty : Ty} {storage : Storage}
    (h : globalShape arena decl = .ok (ty, storage)) :
    storage.isMemory = decl.inMemory arena := by
  unfold globalShape at h
  obtain ⟨⟨ty', storage'⟩, himplied, heq⟩ := map_ok.mp h
  cases heq
  unfold LetDecl.inMemory
  cases hinit : arena.expr? decl.init with
  | none => simp [hinit] at himplied
  | some e =>
    simp only [hinit] at himplied
    cases e with
    | unary op operand =>
      cases op with
      | neg =>
        -- A negated number is kept in a machine global like the number itself.
        cases hoperand : arena.expr? operand with
        | none => simp [hoperand] at himplied
        | some e' =>
          simp only [hoperand] at himplied
          cases e' <;> cases himplied <;> rfl
      | _ => cases himplied
    | _ => cases himplied <;> rfl

end WasmBackend
