import WasmBackend.Proofs.Printed.Interface
import WasmBackend.Proofs.Program.Names

/-!
# Imports agree with exports

The modules of a program are lowered one by one, each from its own tables; what ties them together
are the descriptors that linking copied from one module's export table into another's imports. Here
it is shown that nothing drifts on the way: what the text of a module declares to import from
another module of the program is what the text of that module declares to export. A function has the
same type on both sides, a global the same type and mutability, and an import for which nothing is
declared is a struct.

This is first said of what the texts are printed from. It carries over to the texts as long as no
name breaks out of the line or of the quotes that it stands in (`breaking_names_disagree`). Imports
from the catalog are left out: there is no text that would export them.

The function types need an argument of their own. A module declares one type for each encoding of a
signature, so the declared type may come from another function with the same encoding; but an
encoding determines its type (`funcType_eq_of_encoded`).
-/

namespace WasmBackend

open Lower Text

/-! ## What is to agree -/

/-- Whatever one module imports under a name from the other, the other defines and exports it. An
imported name without a declaration is an exported struct of the other's source. -/
structure ImportAgrees (importer exporter : Wat.Interface) (source : Module) (name : String) :
    Prop where
  function : ∀ i ∈ importer.imports, i.source = source.name → i.field = name →
    ∀ encoded, i.item = .func encoded →
      ∃ encoded', (name, .func encoded') ∈ exporter.exports ∧
        ∃ t t', importer.typeOf? encoded = some t ∧ exporter.typeOf? encoded' = some t' ∧
          t.params = t'.params ∧ t.result = t'.result
  global : ∀ i ∈ importer.imports, i.source = source.name → i.field = name →
    ∀ ty isMutable, i.item = .global ty isMutable →
      (name, .global ty isMutable) ∈ exporter.exports ∧
      ∃ decl ∈ source.letDecls, decl.name = name ∧ decl.exported = true ∧
        if decl.inMemory source.arena then ty = .i32 ∧ isMutable = false else isMutable = true
  struct : (∀ i ∈ importer.imports, i.source = source.name → i.field ≠ name) →
    ∃ decl ∈ source.structDecls, decl.name = name ∧ decl.exported = true

/-! ## The importing side -/

namespace Built

variable {catalog : Catalog} {infos : List ModuleInfo} {memory : Wat.MemoryImport}
variable {m : Module} {info : ModuleInfo} {wat : Wat.Module}

/-- A name that a module imports from outside the catalog has the descriptor under which another
module of the set exports it. -/
theorem exists_import (b : Built catalog infos memory m info wat) {decl : ImportDecl}
    (hdecl : decl ∈ m.importDecls) (hcatalog : catalog.contains decl.source = false)
    {name : String} (hname : name ∈ decl.names) :
    ∃ d, (name, ⟨decl.source, name, some d⟩) ∈ b.linked.imports.entries ∧
      ∃ source ∈ infos, source.name = decl.source ∧ source.exports.get? name = some d := by
  have hrecords := Module.extract_records b.extracted
  have hentry : ImportEntry.unlinked decl.source name ∈ info.imports.entries := by
    rw [hrecords.imports]
    refine List.mem_map.mpr ⟨(decl.source, name), ?_, rfl⟩
    exact List.mem_flatMap.mpr ⟨decl, hdecl, List.mem_map.mpr ⟨name, hname, rfl⟩⟩
  obtain ⟨_, hmem, d, hd, rfl⟩ := exists_of_forall₂ b.links.imports hentry
  refine ⟨d, hmem, ?_⟩
  rcases hd with hd | ⟨-, hlookup⟩
  · cases hd
  · exact Linker.lookup_ok hlookup (Table.contains_eq_false.mp hcatalog)

/-- An imported name is known by one name on both sides. -/
theorem import_name (b : Built catalog infos memory m info wat) {e : String × ImportEntry}
    (he : e ∈ b.linked.imports.entries) : e.2.name = e.1 := by
  obtain ⟨e', he', d, -, rfl⟩ := b.links.import_of_mem he
  rw [(Module.extract_records b.extracted).imports] at he'
  obtain ⟨⟨source, name⟩, -, rfl⟩ := List.mem_map.mp he'
  rfl

theorem linked_distinct (b : Built catalog infos memory m info wat) : b.linked.Distinct :=
  b.links.distinct (Module.extract_distinct b.extracted)

/-- What is declared for an import is what its descriptor says. -/
theorem mem_imports (b : Built catalog infos memory m info wat) {source name : String}
    {d : Descriptor} (h : (name, ⟨source, name, some d⟩) ∈ b.linked.imports.entries)
    {i : Wat.Import} :
    i ∈ wat.imports ∧ i.field = name ↔ importDecl? name ⟨source, name, some d⟩ = some i := by
  rw [b.lowers.parts, List.mem_filterMap]
  constructor
  · rintro ⟨⟨⟨key, e⟩, he, hdecl⟩, hfield⟩
    obtain ⟨-, hname, -⟩ := importDecl?_names hdecl
    obtain rfl : key = name := (b.import_name he).symm.trans (hname.symm.trans hfield)
    have hfirst := (Table.get?_eq_some_iff b.linked_distinct.imports).mpr he
    rw [(Table.get?_eq_some_iff b.linked_distinct.imports).mpr h] at hfirst
    cases hfirst
    exact hdecl
  · intro hdecl
    exact ⟨⟨_, h, hdecl⟩, (importDecl?_names hdecl).2.1⟩

/-! ## The exporting side -/

/-- The type of an imported function is declared. -/
theorem typeOf_imported (b : Built catalog infos memory m info wat) {name : String}
    {i : ImportEntry} {s : Signature} (h : (name, i) ∈ b.linked.imports.entries)
    (hs : i.descriptor = some (.function s)) :
    wat.interface.typeOf? s.encoded = some (funcType s) := by
  rw [Wat.Interface.typeOf?, Wat.Module.interface, b.lowers.parts]
  refine find_type (List.mem_append_left _ (List.mem_filterMap.mpr ⟨i, ?_, ?_⟩))
  · exact List.mem_map.mpr ⟨_, h, rfl⟩
  · rw [hs]
    rfl

/-- The type of a defined function is declared. -/
theorem typeOf_defined (b : Built catalog infos memory m info wat) {name : String}
    {f : FunctionEntry} (h : (name, f) ∈ b.linked.functions.entries) :
    wat.interface.typeOf? f.signature.encoded = some (funcType f.signature) := by
  rw [Wat.Interface.typeOf?, Wat.Module.interface, b.lowers.parts]
  refine find_type (List.mem_append_right _ (List.mem_map.mpr ⟨f, ?_, rfl⟩))
  exact List.mem_map.mpr ⟨_, h, rfl⟩

/-- An exported global is declared, as a constant if it is in memory and as a variable if not. -/
theorem global_exported (b : Built catalog infos memory m info wat) {name : String}
    {g : GlobalEntry} (h : (name, g) ∈ b.linked.globals.entries) (hexported : g.exported = true) :
    (name, .global (if g.storage.isMemory then .i32 else g.ty.valType) (!g.storage.isMemory)) ∈
      wat.interface.exports := by
  obtain ⟨d, hd, hmem⟩ := exists_globalDecl b.lowers.globals h
  have hexports {w : Wat.Global} (hw : w ∈ wat.globals) (hwExported : w.exported = true) :
      (w.name, .global w.ty w.mutable) ∈ wat.interface.exports := by
    refine List.mem_append_left _ (List.mem_filterMap.mpr ⟨w, hw, ?_⟩)
    rw [Wat.Global.export?, if_pos hwExported]
  unfold globalDecl? at hd
  cases hstorage : g.storage with
  | register =>
    simp only [hstorage] at hd
    split at hd
    · cases hd
      exact hexports (hmem _ rfl) hexported
    · cases hd
  | memory address =>
    simp only [hstorage, hexported, if_true] at hd
    cases hd
    exact hexports (hmem _ rfl) rfl

/-- An exported layout is that of an exported struct declaration. -/
theorem exists_structDecl (b : Built catalog infos memory m info wat) {name : String}
    {layout : StructLayout} (h : (name, layout) ∈ info.structs.entries)
    (hexported : layout.exported = true) :
    ∃ decl ∈ m.structDecls, decl.name = name ∧ decl.exported = true := by
  have hrecords := Module.extract_records b.extracted
  obtain ⟨decl, hdecl, hname, hfields⟩ := exists_of_forall₂_right hrecords.structs h
  refine ⟨decl, hdecl, hname.symm, ?_⟩
  rw [← StructLayout.ofFields_exported hfields]
  exact hexported

/-- A global of the table is that of a `let`, kept in memory if its initialiser is. -/
theorem exists_letDecl (b : Built catalog infos memory m info wat) {name : String}
    {g : GlobalEntry} (h : (name, g) ∈ info.globals.entries) :
    ∃ decl ∈ m.letDecls, decl.name = name ∧ decl.exported = g.exported ∧
      decl.inMemory m.arena = g.storage.isMemory := by
  have hrecords := Module.extract_records b.extracted
  obtain ⟨decl, hdecl, hadds⟩ := exists_of_forall₂_right hrecords.globals h
  obtain ⟨storage, hshape, hstorage⟩ := hadds.shape
  refine ⟨decl, hdecl, hadds.name.symm, hadds.exported.symm, ?_⟩
  rw [← globalShape_isMemory hshape, hstorage]

/-- The text of a module reads as what the module has to do with others. -/
theorem interface_eq {base : Nat} {modules : List Module}
    (b : Built catalog infos memory m info wat) (hlines : OneLineNames catalog memory modules)
    (hquotes : NamesAvoid '"' catalog memory modules)
    (hextract : extractAll base modules = .ok infos) (hm : m ∈ modules) :
    Text.interface wat.text.toList = wat.interface := by
  refine (b.forms hlines hextract hm).interface_eq b.wellScoped
    (b.names_avoid (by decide) hquotes hextract hm) ?_ ?_
  · intro n hn
    rw [Wat.Module.typeNames, b.lowers.types_eq, List.map_map] at hn
    obtain ⟨s, -, rfl⟩ := List.mem_map.mp hn
    exact word_typeName s.word_encoded
  · intro i hi
    rw [b.lowers.imports_eq] at hi
    obtain ⟨e, he, hdecl⟩ := List.mem_filterMap.mp hi
    obtain ⟨-, hfield, hname⟩ := importDecl?_names hdecl
    rw [hname, hfield, b.import_name he]

end Built

/-! ## Both sides -/

section

variable {catalog : Catalog} {infos : List ModuleInfo} {memory : Wat.MemoryImport}
variable {m source : Module} {info sourceInfo : ModuleInfo} {importer exporter : Wat.Module}
variable (b : Built catalog infos memory m info importer)
variable (b' : Built catalog infos memory source sourceInfo exporter) {name : String}

include b b'

/-- Nothing is declared for a struct. -/
theorem importAgrees_struct {layout : StructLayout}
    (himport : (name, ⟨source.name, name, some (.struct layout)⟩) ∈ b.linked.imports.entries)
    (hlayout : (name, layout) ∈ sourceInfo.structs.entries) (hexported : layout.exported = true) :
    ImportAgrees importer.interface exporter.interface source name := by
  have hnone : ∀ i ∈ importer.imports, i.field ≠ name := by
    intro i hi hfield
    cases (b.mem_imports himport).mp ⟨hi, hfield⟩
  refine ⟨?_, ?_, fun _ => b'.exists_structDecl hlayout hexported⟩
  · intro i hi _ hfield
    exact absurd hfield (hnone i hi)
  · intro i hi _ hfield
    exact absurd hfield (hnone i hi)

/-- The type of a function is declared on both sides. -/
theorem importAgrees_function {f : FunctionEntry}
    (himport : (name, ⟨source.name, name, some (.function f.signature)⟩) ∈
      b.linked.imports.entries)
    (hf : (name, f) ∈ sourceInfo.functions.entries) (hexported : f.exported = true) :
    ImportAgrees importer.interface exporter.interface source name := by
  have hlinked : (name, f) ∈ b'.linked.functions.entries := by
    rw [b'.links.rest]
    exact hf
  obtain ⟨func, hfunc, rfl, hexport, hencoded⟩ := b'.lowers.exists_func hlinked
  have hexports : (func.name, .func func.encoded) ∈ exporter.interface.exports := by
    refine List.mem_append_right _ (List.mem_filterMap.mpr ⟨func, hfunc, ?_⟩)
    rw [Wat.Func.export?, if_pos (hexport.trans hexported)]
  refine ⟨?_, ?_, ?_⟩
  · intro i hi _ hfield encoded hitem
    cases (b.mem_imports himport).mp ⟨hi, hfield⟩
    cases hitem
    refine ⟨func.encoded, hexports, funcType f.signature, funcType f.signature,
      b.typeOf_imported himport rfl, ?_, rfl, rfl⟩
    rw [hencoded]
    exact b'.typeOf_defined hlinked
  · intro i hi _ hfield ty isMutable hitem
    cases (b.mem_imports himport).mp ⟨hi, hfield⟩
    cases hitem
  · intro hnone
    obtain ⟨hi, hfield⟩ := (b.mem_imports himport).mpr rfl
    exact absurd hfield (hnone _ hi rfl)

/-- Where a global is kept decides its type and mutability, on both sides alike. -/
theorem importAgrees_global {g : GlobalEntry}
    (himport : (name, ⟨source.name, name, some (.global g.ty g.storage.isMemory)⟩) ∈
      b.linked.imports.entries)
    (hg : (name, g) ∈ sourceInfo.globals.entries) (hexported : g.exported = true) :
    ImportAgrees importer.interface exporter.interface source name := by
  have hlinked : (name, g) ∈ b'.linked.globals.entries := by
    rw [b'.links.rest]
    exact hg
  have hexports := b'.global_exported hlinked hexported
  obtain ⟨decl, hdecl, hdeclName, hdeclExported, hinMemory⟩ := b'.exists_letDecl hg
  have hdeclared := importDecl?_global source.name name g.ty g.storage.isMemory
  refine ⟨?_, ?_, ?_⟩
  · intro i hi _ hfield encoded hitem
    have hi := (b.mem_imports himport).mp ⟨hi, hfield⟩
    rw [hdeclared] at hi
    cases hi
    cases hitem
  · intro i hi _ hfield ty isMutable hitem
    have hi := (b.mem_imports himport).mp ⟨hi, hfield⟩
    rw [hdeclared] at hi
    cases hi
    cases hitem
    refine ⟨hexports, decl, hdecl, hdeclName, hdeclExported.trans hexported, ?_⟩
    rw [hinMemory]
    cases g.storage.isMemory <;> simp
  · intro hnone
    obtain ⟨hi, hfield⟩ := (b.mem_imports himport).mpr hdeclared
    exact absurd hfield (hnone _ hi rfl)

end

/-- Imports and exports agree across the modules of a program, as its texts declare them, if no name
holds a line break or a quote. -/
theorem imports_agree_with_exports {catalog : Catalog} {base : Nat} {memory : Wat.MemoryImport}
    {modules : List Module} {texts : List (String × String)}
    (h : compileModules catalog base memory modules = .ok texts)
    (hlines : OneLineNames catalog memory modules)
    (hquotes : NamesAvoid '"' catalog memory modules) :
    ∃ targets, targetModules catalog base memory modules = .ok targets ∧
      texts = targetTexts targets ∧
      texts.map Prod.fst = (sortByName modules).map Module.name ∧
      (∀ t ∈ targets, interface t.2.text.toList = t.2.interface) ∧
      ∀ m ∈ modules, ∀ importer, (m.name, importer) ∈ texts →
        ∀ decl ∈ m.importDecls, catalog.contains decl.source = false → ∀ name ∈ decl.names,
          ∃ source ∈ modules, source.name = decl.source ∧
            ∃ exporter, (source.name, exporter) ∈ texts ∧
              ImportAgrees (interface importer.toList) (interface exporter.toList) source name := by
  rw [compileModules_eq] at h
  obtain ⟨targets, htargets, rfl⟩ := Compiled.map_ok.mp h
  obtain ⟨infos, linked, hextract, hlink, hlower⟩ := targetModules_ok htargets
  have hnames : (targetTexts targets).map Prod.fst = (sortByName modules).map Module.name := by
    rw [← lowerAll_names hlower, targetTexts, List.map_map]
    rfl
  have hread : ∀ t ∈ targets, interface t.2.text.toList = t.2.interface := by
    intro t ht
    obtain ⟨m, hm, -, info, -, -, ⟨b⟩⟩ := built_of_target hextract hlink hlower ht
    exact b.interface_eq hlines hquotes hextract hm
  refine ⟨targets, htargets, rfl, hnames, hread, ?_⟩
  intro m hm text htext decl hdecl hcatalog name hname
  obtain ⟨⟨_, importer⟩, himporter, heq⟩ := List.mem_map.mp htext
  cases heq
  obtain ⟨info, hinfo, hinfoName⟩ := exists_info hextract hm
  obtain ⟨b⟩ := built_of_mem hextract hlink hlower hm hinfo hinfoName himporter
  obtain ⟨d, himport, sourceInfo, hsourceInfo, hsourceName, hexport⟩ :=
    b.exists_import hdecl hcatalog hname
  obtain ⟨source, hsource, hname'⟩ := exists_source hextract hsourceInfo
  obtain ⟨exporter, hexporter⟩ := exists_target hlower hsource
  obtain ⟨b'⟩ := built_of_mem hextract hlink hlower hsource hsourceInfo hname' hexporter
  refine ⟨source, hsource, hname'.symm.trans hsourceName, exporter.text,
    List.mem_map_of_mem hexporter, ?_⟩
  rw [hread _ himporter, hread _ hexporter]
  rw [← hsourceName, hname'] at himport
  have hpublished : (name, d) ∈ sourceInfo.published := by
    rw [← (Module.extract_records b'.extracted).exports]
    exact Table.mem_of_get? hexport
  rcases ModuleInfo.mem_published.mp hpublished with
    ⟨layout, hlayout, hexported, rfl⟩ | ⟨f, hf, hexported, rfl⟩ | ⟨g, hg, hexported, rfl⟩
  · exact importAgrees_struct b b' himport hlayout hexported
  · exact importAgrees_function b b' himport hf hexported
  · exact importAgrees_global b b' himport hg hexported

/-- Exports a function, a number, a text and a struct. -/
def toolbox : Module where
  name := "toolbox"
  items := [2, 3, 4, 5]
  arena := {
    exprs := #[.ident "x", .int 5, .str "on"]
    stmts := #[
      .ret (some 0), .block [0],
      .function ⟨"same", [⟨"x", .i32⟩], .i32, 1, true⟩,
      .letting ⟨"limit", none, 1, true⟩,
      .letting ⟨"label", none, 2, true⟩,
      .struct ⟨"Pair", [⟨"a", .i32⟩, ⟨"b", .f32⟩], true⟩] }

/-- Imports all of it. -/
def desk : Module where
  name := "desk"
  items := [0]
  arena := { stmts := #[.importing ⟨"toolbox", ["same", "limit", "label", "Pair"]⟩] }

theorem desk_agrees_with_toolbox :
    ∃ texts, compileModules {} 1024 {} [desk, toolbox] = .ok texts ∧
      ∃ importer, ("desk", importer) ∈ texts ∧
        ∀ name ∈ ["same", "limit", "label", "Pair"], ∃ source ∈ [desk, toolbox],
          source.name = "toolbox" ∧ ∃ exporter, (source.name, exporter) ∈ texts ∧
            ImportAgrees (interface importer.toList) (interface exporter.toList) source name := by
  have hsort : sortByName [desk, toolbox] = [desk, toolbox] :=
    List.mergeSort_of_pairwise (by simp [desk, toolbox])
  have hsome : (targetModules {} 1024 {} [desk, toolbox]).toOption.isSome = true := by
    unfold targetModules
    rw [hsort]
    decide +kernel
  obtain ⟨built, hbuilt⟩ := Option.isSome_iff_exists.mp hsome
  have hok := compileModules_of_targets hbuilt
  obtain ⟨targets, -, hprinted, hnames, -, hagree⟩ := imports_agree_with_exports hok
    ⟨by decide, by decide, by decide⟩ ⟨by decide, by decide, by decide⟩
  have himporter : "desk" ∈ (targetTexts built).map Prod.fst := by
    rw [hnames]
    exact List.mem_map.mpr ⟨desk, mem_sortByName.mpr (by simp), rfl⟩
  obtain ⟨⟨_, importer⟩, hmem, rfl⟩ := List.mem_map.mp himporter
  refine ⟨_, hok, importer, hmem, fun name hname => ?_⟩
  exact hagree desk (by simp) importer hmem _ (List.mem_singleton.mpr rfl) rfl name hname

/-- Exports a struct. -/
def chest : Module where
  name := "chest"
  items := [0]
  arena := { stmts := #[.struct ⟨"Pair", [⟨"a", .i32⟩], true⟩] }

/-- Imports the struct, and has a global whose name holds a line that imports it as a function. -/
def forger : Module where
  name := "forger"
  items := [0, 1]
  arena := {
    exprs := #[.int 1]
    stmts := #[
      .importing ⟨"chest", ["Pair"]⟩,
      .letting ⟨"x\n(import \"chest\" \"Pair\" (func $Pair (type $_v_type)))\n", none, 0, false⟩] }

/-- Exports a function whose name holds a quote. -/
def quoter : Module where
  name := "quoter"
  items := [1]
  arena := { stmts := #[.block [], .function ⟨"a\"b", [], .void, 0, true⟩] }

/-- Imports that function. -/
def borrower : Module where
  name := "borrower"
  items := [0]
  arena := { stmts := #[.importing ⟨"quoter", ["a\"b"]⟩] }

/-- With such names a text imports what is not exported, or imports nothing where it should. -/
theorem breaking_names_disagree :
    (∃ texts importer exporter, compileModules {} 1024 {} [chest, forger] = .ok texts ∧
      ("forger", importer) ∈ texts ∧ ("chest", exporter) ∈ texts ∧
      ¬ImportAgrees (interface importer.toList) (interface exporter.toList) chest "Pair") ∧
    ∃ texts importer exporter, compileModules {} 1024 {} [borrower, quoter] = .ok texts ∧
      ("borrower", importer) ∈ texts ∧ ("quoter", exporter) ∈ texts ∧
      ¬ImportAgrees (interface importer.toList) (interface exporter.toList) quoter "a\"b" := by
  constructor
  · let empty : Wat.Module := ⟨{}, [], [], [], [], []⟩
    let forged : Wat.Module := { empty with
      globals := [⟨"x\n(import \"chest\" \"Pair\" (func $Pair (type $_v_type)))\n",
        false, .i32, true,
        .intConst 1⟩] }
    have hsort : sortByName [chest, forger] = [chest, forger] :=
      List.mergeSort_of_pairwise (by simp [chest, forger])
    have htargets : (targetModules {} 1024 {} [chest, forger]).toOption =
        some [("chest", empty), ("forger", forged)] := by
      unfold targetModules
      rw [hsort]
      decide +kernel
    have himports : ⟨"chest", "Pair", "Pair", .func "_v"⟩ ∈
        (interface forged.text.toList).imports := by
      rw [Wat.Module.text_eq]
      decide +kernel
    have hexports : (interface empty.text.toList).exports = [] := by
      rw [Wat.Module.text_eq]
      decide +kernel
    refine ⟨_, forged.text, empty.text, compileModules_of_targets htargets, by simp [targetTexts],
      by simp [targetTexts], ?_⟩
    intro h
    obtain ⟨encoded, hexport, -⟩ := h.function _ himports rfl rfl "_v" rfl
    rw [hexports] at hexport
    cases hexport
  · let types : List Wat.FuncType := [⟨"_v", [], none⟩]
    let borrowed : Wat.Module :=
      ⟨{}, types, [⟨"quoter", "a\"b", "a\"b", .func "_v"⟩], [], [], []⟩
    let quoted : Wat.Module := ⟨{}, types, [], [], [], [⟨"a\"b", true, "_v", [], none, [], .done⟩]⟩
    have hsort : sortByName [borrower, quoter] = [borrower, quoter] :=
      List.mergeSort_of_pairwise (by simp [borrower, quoter])
    have htargets : (targetModules {} 1024 {} [borrower, quoter]).toOption =
        some [("borrower", borrowed), ("quoter", quoted)] := by
      unfold targetModules
      rw [hsort]
      decide +kernel
    have himports : (interface borrowed.text.toList).imports = [] := by
      rw [Wat.Module.text_eq]
      decide +kernel
    refine ⟨_, borrowed.text, quoted.text, compileModules_of_targets htargets,
      by simp [targetTexts], by simp [targetTexts], ?_⟩
    intro h
    obtain ⟨decl, hdecl, -⟩ := h.struct (by simp [himports])
    cases hdecl

end WasmBackend
