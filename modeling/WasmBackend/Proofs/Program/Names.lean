import WasmBackend.Proofs.Printed.Reading
import WasmBackend.Proofs.Program.Stages

/-!
# Printed names are names of the sources

Compiling makes up no names except type names, which are letters, and the names of flattened
members, which are put together from two names. So every name in the text of a module stands in a
declaration of a module of the working set, in a struct of the catalog, or in the memory import; and
if none of those holds a line break, no printed name does, and likewise for a quote
(`Built.names_avoid`). Of every name that can be declared something is asked, be it printed or not.
-/

namespace WasmBackend

open Lower Text

/-! ## Names of the sources -/

/-- The names that a statement declares or imports. -/
def Stmt.names : Stmt → List String
  | .function decl => decl.name :: decl.params.map Binding.name
  | .struct decl => decl.fields.map Binding.name
  | .importing decl => decl.source :: decl.names
  | .letting decl => [decl.name]
  | _ => []

def Module.names (m : Module) : List String := m.arena.stmts.toList.flatMap Stmt.names

def Descriptor.memberNames : Descriptor → List String
  | .struct layout => layout.members.keys
  | _ => []

/-- The members of the structs that a catalog offers. -/
def Catalog.memberNames (c : Catalog) : List String :=
  c.modules.entries.flatMap fun e => e.2.exports.entries.flatMap fun x => x.2.memberNames

/-- No name that can get into a text holds this character. -/
structure NamesAvoid (c : Char) (catalog : Catalog) (memory : Wat.MemoryImport)
    (modules : List Module) : Prop where
  modules : ∀ m ∈ modules, ∀ n ∈ m.names, Avoids c n
  catalog : ∀ n ∈ catalog.memberNames, Avoids c n
  memory : Avoids c memory.source ∧ Avoids c memory.field

/-- No name that can get into a text holds a line break. -/
abbrev OneLineNames (catalog : Catalog) (memory : Wat.MemoryImport) (modules : List Module) :
    Prop := NamesAvoid '\n' catalog memory modules

namespace Module

variable {m : Module} {n : String}

theorem mem_names {id : StmtId} {s : Stmt} (hs : m.arena.stmt? id = some s) (hn : n ∈ s.names) :
    n ∈ m.names := by
  refine List.mem_flatMap.mpr ⟨s, ?_, hn⟩
  rw [Array.mem_toList_iff]
  exact Array.mem_of_getElem? hs

theorem mem_names_of_item {item : StmtId × Stmt} (hitem : item ∈ m.itemStmts)
    (hn : n ∈ item.2.names) : n ∈ m.names := by
  obtain ⟨id, -, hid⟩ := List.mem_filterMap.mp hitem
  obtain ⟨s, hs, rfl⟩ := Option.map_eq_some_iff.mp hid
  exact mem_names hs hn

theorem mem_names_of_function {e : StmtId × FunctionDecl} (he : e ∈ m.functionDecls)
    (hn : n ∈ (Stmt.function e.2).names) : n ∈ m.names := by
  obtain ⟨⟨id, s⟩, hitem, hs⟩ := List.mem_filterMap.mp he
  cases s <;> cases hs
  exact mem_names_of_item hitem hn

theorem mem_names_of_struct {decl : StructDecl} (hdecl : decl ∈ m.structDecls)
    (hn : n ∈ (Stmt.struct decl).names) : n ∈ m.names := by
  obtain ⟨⟨id, s⟩, hitem, hs⟩ := List.mem_filterMap.mp hdecl
  cases s <;> cases hs
  exact mem_names_of_item hitem hn

theorem mem_names_of_import {decl : ImportDecl} (hdecl : decl ∈ m.importDecls)
    (hn : n ∈ (Stmt.importing decl).names) : n ∈ m.names := by
  obtain ⟨⟨id, s⟩, hitem, hs⟩ := List.mem_filterMap.mp hdecl
  cases s <;> cases hs
  exact mem_names_of_item hitem hn

theorem mem_names_of_let {decl : LetDecl} (hdecl : decl ∈ m.letDecls)
    (hn : n ∈ (Stmt.letting decl).names) : n ∈ m.names := by
  obtain ⟨⟨id, s⟩, hitem, hs⟩ := List.mem_filterMap.mp hdecl
  cases s <;> cases hs
  exact mem_names_of_item hitem hn

end Module

/-! ## Names of the tables -/

namespace ModuleInfo.Records

variable {m : Module} {info : ModuleInfo} {n : String}

theorem mem_names_of_struct (h : info.Records m) {e : String × StructLayout}
    (he : e ∈ info.structs.entries) (hn : n ∈ e.2.members.keys) : n ∈ m.names := by
  obtain ⟨decl, hdecl, hadds⟩ := exists_of_forall₂_right h.structs he
  refine Module.mem_names_of_struct hdecl ?_
  rw [StructLayout.ofFields_keys hadds.2] at hn
  exact hn

theorem mem_names_of_import (h : info.Records m) {e : String × ImportEntry}
    (he : e ∈ info.imports.entries) : e.1 ∈ m.names ∧ e.2.source ∈ m.names ∧
      e.2.name ∈ m.names := by
  rw [h.imports] at he
  obtain ⟨⟨source, name⟩, hmem, rfl⟩ := List.mem_map.mp he
  obtain ⟨decl, hdecl, hpair⟩ := List.mem_flatMap.mp hmem
  obtain ⟨name', hname, heq⟩ := List.mem_map.mp hpair
  cases heq
  have hsource := Module.mem_names_of_import hdecl (n := decl.source) List.mem_cons_self
  have hname := Module.mem_names_of_import hdecl (List.mem_cons_of_mem _ hname)
  exact ⟨hname, hsource, hname⟩

theorem mem_names_of_function (h : info.Records m) (hn : n ∈ info.functions.keys) :
    n ∈ m.names := by
  rw [Table.keys, h.functions, List.map_map] at hn
  obtain ⟨⟨id, decl⟩, hdecl, rfl⟩ := List.mem_map.mp hn
  exact Module.mem_names_of_function hdecl List.mem_cons_self

theorem mem_names_of_global (h : info.Records m) (hn : n ∈ info.globals.keys) : n ∈ m.names := by
  obtain ⟨e, he, rfl⟩ := List.mem_map.mp hn
  obtain ⟨decl, hdecl, hadds⟩ := exists_of_forall₂_right h.globals he
  exact Module.mem_names_of_let hdecl (List.mem_singleton.mpr hadds.name)

end ModuleInfo.Records

/-! ## Names of a target module -/

theorem Signature.word_encoded (s : Signature) : OneWord s.encoded := by
  have hletter : ∀ l : Lane, isWordChar l.letter = true := by
    intro l
    cases l <;> decide
  apply word_ofList
  intro c hmem
  rcases List.mem_append.mp hmem with hparam | hrest
  · obtain ⟨l, -, rfl⟩ := List.mem_map.mp hparam
    exact hletter l
  · rcases List.mem_cons.mp hrest with rfl | hrest
    · decide
    · rw [List.mem_singleton.mp hrest]
      exact hletter _

/-- A global starts with a constant. -/
theorem Lower.globalDecl?_init {arena : Arena} {name : String} {g : GlobalEntry} {w : Wat.Global}
    (h : globalDecl? arena name g = .ok (some w)) : w.init.name? = none := by
  unfold globalDecl? at h
  split at h
  · split at h
    · cases h
      unfold Instr.constant
      split <;> rfl
    · cases h
  · split at h
    · cases h
      rfl
    · cases h

/-- The names that a body binds are those of its lets, and those put together from the names of lets
and of members of structs. -/
theorem Source.mem_boundNames {info : ModuleInfo} {arena : Arena} {id : StmtId} {n : String}
    (h : n ∈ boundNames info arena id) :
    ∃ id' decl, arena.stmt? id' = some (.letting decl) ∧ (n = decl.name ∨
      ∃ structName layout, info.structLayout structName = .ok layout ∧
        ∃ member ∈ layout.members.keys, n = Scope.flattenedName decl.name member) := by
  rw [boundNames_eq_lets, List.mem_flatMap] at h
  obtain ⟨decl, hdecl, h⟩ := h
  obtain ⟨id', hid', -⟩ := inside_of_mem_lets hdecl
  refine ⟨id', decl, hid', ?_⟩
  simp only [letNames] at h
  split at h
  · next structName fields hinit =>
    split at h
    · next layout hlayout =>
      rcases List.mem_cons.mp h with hname | hmember
      · exact .inl hname
      · obtain ⟨member, hmem, rfl⟩ := List.mem_map.mp hmember
        exact .inr ⟨structName, layout, hlayout, member, hmem, rfl⟩
    · exact .inl (List.mem_singleton.mp h)
  · exact .inl (List.mem_singleton.mp h)

namespace Built

variable {catalog : Catalog} {memory : Wat.MemoryImport} {modules : List Module} {base : Nat}
variable {infos : List ModuleInfo} {m : Module} {info : ModuleInfo} {wat : Wat.Module}
variable (b : Built catalog infos memory m info wat) {c : Char}

include b

/-- Members of the structs that a module can use. -/
theorem members_avoid (hnames : NamesAvoid c catalog memory modules)
    (hextract : extractAll base modules = .ok infos) (hm : m ∈ modules) {structName : String}
    {layout : StructLayout} (h : b.linked.structLayout structName = .ok layout) :
    ∀ n ∈ layout.members.keys, Avoids c n := by
  intro n hn
  have hrecords := Module.extract_records b.extracted
  unfold ModuleInfo.structLayout at h
  split at h
  · next hstruct =>
    -- One of its own.
    cases h
    have hmem : (structName, layout) ∈ info.structs.entries := by
      have hlinked := Table.mem_of_get? hstruct
      rw [b.links.rest] at hlinked
      exact hlinked
    exact hnames.modules m hm n (hrecords.mem_names_of_struct hmem hn)
  · split at h
    · next hdescriptor =>
      cases h
      obtain ⟨i, hi, hd⟩ := Option.bind_eq_some_iff.mp hdescriptor
      obtain ⟨e, he, d, hresolves, heq⟩ := b.links.import_of_mem (Table.mem_of_get? hi)
      cases heq
      cases hd
      rw [hrecords.imports] at he
      obtain ⟨⟨source, name⟩, -, rfl⟩ := List.mem_map.mp he
      rcases hresolves with hd | ⟨-, hlookup⟩
      · cases hd
      · cases hcatalog : catalog.get? source with
        | some stdlib =>
          -- One of the catalog.
          refine hnames.catalog n ?_
          unfold Linker.lookup at hlookup
          simp only [ImportEntry.unlinked, hcatalog] at hlookup
          split at hlookup
          · next d hexport =>
            cases hlookup
            refine List.mem_flatMap.mpr ⟨(source, stdlib), Table.mem_of_get? hcatalog, ?_⟩
            exact List.mem_flatMap.mpr ⟨_, Table.mem_of_get? hexport, hn⟩
          · cases hlookup
        | none =>
          -- One of another module.
          obtain ⟨other, hother, -, hexport⟩ := Linker.lookup_ok hlookup hcatalog
          obtain ⟨m', hm', base', hextract'⟩ :=
            exists_of_forall₂_right (extractAll_ok hextract) hother
          have hrecords' := Module.extract_records hextract'
          have hpublished := Table.mem_of_get? hexport
          rw [hrecords'.exports] at hpublished
          rcases ModuleInfo.mem_published.mp hpublished with
            ⟨layout', hlayout, -, heq⟩ | ⟨_, _, _, heq⟩ | ⟨_, _, _, heq⟩
          · cases heq
            exact hnames.modules m' hm' n (hrecords'.mem_names_of_struct hlayout hn)
          · cases heq
          · cases heq
    · cases h

/-- No name in the text of a module holds what the names of the sources avoid. -/
theorem names_avoid (hc : c ∈ separators) (hnames : NamesAvoid c catalog memory modules)
    (hextract : extractAll base modules = .ok infos) (hm : m ∈ modules) :
    ∀ n ∈ wat.names, Avoids c n := by
  have hrecords := Module.extract_records b.extracted
  have hmodule := hnames.modules m hm
  intro n hn
  simp only [Wat.Module.names, List.mem_append, List.mem_flatMap, List.mem_map, List.mem_cons,
    List.not_mem_nil, or_false] at hn
  -- One case for each part of the module, in the order in which it is printed.
  rcases hn with (((hn | ⟨t, ht, rfl⟩) | ⟨i, hi, hn⟩) | ⟨g, hg, hn⟩) | ⟨f, hf, hn⟩
  · have hmemory : wat.memory = memory := by rw [b.lowers.parts]
    rw [hmemory] at hn
    rcases hn with rfl | rfl
    · exact hnames.memory.1
    · exact hnames.memory.2
  · rw [b.lowers.types_eq] at ht
    obtain ⟨s, -, rfl⟩ := List.mem_map.mp ht
    exact s.word_encoded.avoids hc
  · rw [b.lowers.imports_eq] at hi
    obtain ⟨e, he, hdecl⟩ := List.mem_filterMap.mp hi
    obtain ⟨hsource, hfield, hname⟩ := importDecl?_names hdecl
    obtain ⟨e', he', d, -, rfl⟩ := b.links.import_of_mem he
    obtain ⟨hkey, hfrom, hexport⟩ := hrecords.mem_names_of_import he'
    simp only [Wat.Import.names, List.mem_append, List.mem_cons, List.not_mem_nil, or_false,
      Option.mem_toList] at hn
    rcases hn with (rfl | rfl | rfl) | hn
    · exact hmodule _ (hsource ▸ hfrom)
    · exact hmodule _ (hfield ▸ hexport)
    · exact hmodule _ (hname ▸ hkey)
    · unfold Wat.Import.type? at hn
      split at hn
      · next hitem =>
        cases hn
        obtain ⟨s, -, rfl⟩ := importDecl?_func hdecl hitem
        exact s.word_encoded.avoids hc
      · cases hn
  · have hname : g.name ∈ m.names := by
      refine hrecords.mem_names_of_global ?_
      have hsub := b.lowers.globals_names.subset (List.mem_map_of_mem hg)
      rw [b.links.rest] at hsub
      exact hsub
    obtain ⟨decls, hdecls, heq⟩ := globalDecls_ok b.lowers.globals
    have hinit : g.init.name? = none := by
      rw [heq] at hg
      obtain ⟨d, hd, rfl⟩ := List.mem_filterMap.mp hg
      obtain ⟨_, -, hdecl⟩ := exists_of_forall₂_right hdecls hd
      exact globalDecl?_init hdecl
    simp only [Wat.Global.names, hinit, Option.toList_none, List.mem_cons, List.not_mem_nil,
      or_false] at hn
    exact hmodule _ (hn ▸ hname)
  · obtain ⟨e, he, ⟨l⟩⟩ := b.lowers.exists_lowering hf
    have hentry : e.1 ∈ m.names := by
      refine hrecords.mem_names_of_function ?_
      have hkey : e.1 ∈ b.linked.functions.keys := List.mem_map_of_mem he
      rw [b.links.rest] at hkey
      exact hkey
    simp only [Wat.Func.names, List.mem_cons] at hn
    rcases hn with rfl | rfl | hn
    · rw [congrArg Wat.Func.name l.func_eq]
      exact hmodule _ hentry
    · rw [congrArg Wat.Func.encoded l.func_eq]
      exact (Signature.word_encoded _).avoids hc
    · rw [l.variableNames_eq] at hn
      rcases List.mem_append.mp hn with hparam | hlocal
      · rw [l.declared_params, (functionFrame_eq l.params_eq).1, Table.keys, List.map_map] at hparam
        have hdecl : n ∈ l.decl.params.map Binding.name := hparam
        exact hmodule _ (Module.mem_names l.decl_eq (List.mem_cons_of_mem _ hdecl))
      -- A flattened local is called after the variable and the member, with an underscore between.
      · obtain ⟨id, decl, hlet, hname⟩ := Source.mem_boundNames ((l.mem_declared n).mp hlocal)
        have hdecl : Avoids c decl.name :=
          hmodule _ (Module.mem_names hlet (List.mem_singleton.mpr rfl))
        rcases hname with rfl | ⟨structName, layout, hlayout, member, hmember, rfl⟩
        · exact hdecl
        · have hmember := b.members_avoid hnames hextract hm hlayout member hmember
          exact .append (.append hdecl (.literal hc (by decide))) hmember

theorem wellScoped : wat.WellScoped := by
  refine b.lowers.wellScoped (b.links.distinct (Module.extract_distinct b.extracted)) ?_
  rw [b.links.rest]
  exact (Module.extract_records b.extracted).exports

/-- Every line of the text is one line. -/
theorem forms (hnames : OneLineNames catalog memory modules)
    (hextract : extractAll base modules = .ok infos) (hm : m ∈ modules) : wat.Forms :=
  Wat.Module.forms b.wellScoped.bodies (b.names_avoid (by decide) hnames hextract hm)

end Built

end WasmBackend
