import Mathlib.Data.List.Induction
import Mathlib.Data.String.Basic
import WasmBackend.Proofs.Data.Completeness
import WasmBackend.Proofs.Program.ConstantData
import WasmBackend.Proofs.Symbols.Extraction
import WasmBackend.Proofs.Symbols.Resolution

/-!
# Working sets

A program is compiled from its entry and the modules that the entry imports from, one level deep.
The entry itself and the modules of the catalog are left out, and a module that is imported from
twice is loaded once; so, with a loader that answers a name with a module of that name, the modules
of a working set have different names (`workingSet_names_nodup`).

What can go wrong after loading follows from that. Linking never meets a name twice, and making code
never misses a module that was linked. The one way for a module to be missing is an import of a
module other than the entry: those it imports from are not loaded for its sake. What the texts say
is left out.
-/

namespace WasmBackend

open Compiled

/-! ## Import sources -/

/-- Adds a source at the end, if it is new. -/
def noteSource (sources : List String) (source : String) : List String :=
  if sources.contains source then sources else sources ++ [source]

theorem foldl_noteSource (sources : List String) :
    sources.foldl noteSource [] = sources.eraseDups := by
  induction sources using List.reverseRecOn with
  | nil => rfl
  | append_singleton sources source ih =>
    rw [List.foldl_append, ih, List.eraseDups_append, List.foldl_cons, List.foldl_nil, noteSource]
    by_cases hmem : source ∈ sources
    · simp [hmem, List.removeAll]
    · simp [hmem, List.removeAll, List.eraseDups_cons]

theorem noteSource_nodup {sources : List String} (h : sources.Nodup) (source : String) :
    (noteSource sources source).Nodup := by
  unfold noteSource
  split
  · exact h
  · next hfresh =>
    rw [List.contains_iff_mem] at hfresh
    exact List.nodup_append.mpr ⟨h, List.nodup_singleton _, by
      rintro a ha b hb rfl
      exact hfresh (List.mem_singleton.mp hb ▸ ha)⟩

theorem eraseDups_nodup (sources : List String) : sources.eraseDups.Nodup := by
  rw [← foldl_noteSource]
  exact List.foldlRecOn sources noteSource List.nodup_nil fun _ h source _ =>
    noteSource_nodup h source

namespace Module

/-- The sources of a module's imports, each where it is mentioned first. -/
theorem importSources_eq (m : Module) :
    m.importSources = (m.importDecls.map ImportDecl.source).eraseDups := by
  rw [← foldl_noteSource, importSources, importDecls, List.foldl_map, List.foldl_filterMap]
  congr 1
  funext sources item
  obtain ⟨id, s⟩ := item
  cases s with
  | importing decl => rfl
  | _ => rfl

theorem mem_importSources {m : Module} {source name : String}
    (h : (source, name) ∈ m.importedNames) : source ∈ m.importSources := by
  obtain ⟨decl, hdecl, hname⟩ := List.mem_flatMap.mp h
  obtain ⟨_, -, heq⟩ := List.mem_map.mp hname
  cases heq
  rw [importSources_eq, List.mem_eraseDups]
  exact List.mem_map_of_mem hdecl

end Module

/-! ## Loading -/

section Loading

variable {σ : Type} (load : String → StateM σ (Except LoadError Module))

/-- A name is answered with a module of that name, if with any. -/
def LoadsByName : Prop := ∀ name s m s', load name s = (.ok m, s') → m.name = name

/-- The modules of these names, loaded one after the other. -/
inductive Loads : σ → List String → List Module → σ → Prop
  | nil (s : σ) : Loads s [] [] s
  | cons {name : String} {names : List String} {m : Module} {modules : List Module} {s t s' : σ}
      (hfirst : load name s = (.ok m, t)) (hrest : Loads t names modules s') :
      Loads s (name :: names) (m :: modules) s'

variable {load} {modules : List Module} {s s' : σ}

theorem Loads.names (hload : LoadsByName load) {names : List String}
    (h : Loads load s names modules s') : modules.map Module.name = names := by
  induction h with
  | nil => rfl
  | cons hfirst _ ih => rw [List.map_cons, hload _ _ _ _ hfirst, ih]

theorem bind_of_run {α β : Type} {x : StateM σ α} {f : α → StateM σ β} {a : α} {t : σ}
    (h : x s = (a, t)) : (x >>= f) s = f a t := by
  show StateT.bind (m := Id) x f s = _
  simp only [StateT.bind, h]
  rfl

theorem loadAll_ok {names : List String} :
    loadAll load names s = (.ok modules, s') ↔ Loads load s names modules s' := by
  constructor
  · intro h
    induction names generalizing modules s with
    | nil =>
      cases h
      exact .nil _
    | cons name rest ih =>
      obtain ⟨first, t, hfirst⟩ : ∃ first t, load name s = (first, t) := ⟨_, _, rfl⟩
      rw [loadAll, bind_of_run hfirst] at h
      cases first with
      | error e => cases h
      | ok first =>
        -- What is loaded first may change what there is to load, so the state is kept track of.
        obtain ⟨others, t', hothers⟩ : ∃ others t', loadAll load rest t = (others, t') :=
          ⟨_, _, rfl⟩
        dsimp only at h
        rw [bind_of_run hothers] at h
        cases others with
        | error e => cases h
        | ok others =>
          cases h
          exact .cons hfirst (ih hothers)
  · intro h
    induction h with
    | nil => rfl
    | cons hfirst _ ih =>
      rw [loadAll, bind_of_run hfirst]
      dsimp only
      rw [bind_of_run ih]
      rfl

/-- A working set is the entry, and then the modules that it asks for. -/
theorem loadWorkingSet_ok {catalog : Catalog} {entry : String} :
    loadWorkingSet load catalog entry s = (.ok modules, s') ↔
      ∃ first rest t, modules = first :: rest ∧ load entry s = (.ok first, t) ∧
        Loads load t (siblings catalog entry first) rest s' := by
  constructor
  · intro h
    obtain ⟨first, t, hfirst⟩ : ∃ first t, load entry s = (first, t) := ⟨_, _, rfl⟩
    rw [loadWorkingSet, bind_of_run hfirst] at h
    cases first with
    | error e => cases h
    | ok first =>
      obtain ⟨rest, t', hrest⟩ :
          ∃ rest t', loadAll load (siblings catalog entry first) t = (rest, t') := ⟨_, _, rfl⟩
      dsimp only at h
      rw [bind_of_run hrest] at h
      cases rest with
      | error e => cases h
      | ok rest =>
        cases h
        exact ⟨first, rest, t, rfl, hfirst, loadAll_ok.mp hrest⟩
  · rintro ⟨first, rest, t, rfl, hfirst, hrest⟩
    rw [loadWorkingSet, bind_of_run hfirst]
    dsimp only
    rw [bind_of_run (loadAll_ok.mpr hrest)]
    rfl

end Loading

/-- A file is taken for a module of its name only if the module says so. -/
theorem loadFile_loadsByName {σ : Type} (host : Host (StateM σ)) (dir : Path) :
    LoadsByName (loadFile host dir) := by
  intro name s m s' h
  obtain ⟨contents, t, hread⟩ : ∃ contents t, host.read (modulePath dir name) s = (contents, t) :=
    ⟨_, _, rfl⟩
  rw [loadFile, bind_of_run hread] at h
  cases contents with
  | error reason => cases reason <;> cases h
  | ok text =>
    obtain ⟨h, -⟩ := Prod.mk.inj h
    unfold loadText at h
    split at h
    · cases h
    · split at h
      · cases h
      · split at h
        · next hname =>
          cases h
          exact hname
        · cases h

theorem loadFrom_loadsByName {σ : Type} (modules : List Module) :
    LoadsByName (σ := σ) fun name => pure (loadFrom modules name) := by
  intro name s m s' h
  obtain ⟨h, -⟩ := Prod.mk.inj h
  unfold loadFrom at h
  split at h
  · next hfind =>
    cases h
    simpa using List.find?_some hfind
  · cases h

/-! ## The names of a working set -/

/-- What is asked for besides the entry: each source once, and neither the entry nor a module of the
catalog. -/
theorem siblings_eq (catalog : Catalog) (entry : String) (m : Module) :
    siblings catalog entry m =
      (m.importDecls.map ImportDecl.source).eraseDups.filter fun source =>
        source != entry && !catalog.contains source := by
  rw [siblings, Module.importSources_eq]

theorem mem_siblings {catalog : Catalog} {entry : String} {m : Module} {source : String} :
    source ∈ siblings catalog entry m ↔
      source ∈ m.importSources ∧ source ≠ entry ∧ catalog.get? source = none := by
  rw [siblings, List.mem_filter]
  simp [Catalog.contains, Catalog.get?, Table.contains_eq_false]

theorem siblings_nodup (catalog : Catalog) (entry : String) (m : Module) :
    (entry :: siblings catalog entry m).Nodup := by
  refine List.nodup_cons.mpr ⟨fun h => (mem_siblings.mp h).2.1 rfl, ?_⟩
  rw [siblings_eq]
  exact (eraseDups_nodup _).filter _

section

variable {catalog : Catalog} {entry : String} {σ : Type}
variable {load : String → StateM σ (Except LoadError Module)}

theorem workingSet_names (hload : LoadsByName load) {modules : List Module} {s s' : σ}
    (h : loadWorkingSet load catalog entry s = (.ok modules, s')) :
    ∃ first rest, modules = first :: rest ∧ first.name = entry ∧
      rest.map Module.name = siblings catalog entry first := by
  obtain ⟨first, rest, t, rfl, hfirst, hrest⟩ := loadWorkingSet_ok.mp h
  exact ⟨first, rest, rfl, hload _ _ _ _ hfirst, hrest.names hload⟩

theorem workingSet_names_nodup (hload : LoadsByName load) {modules : List Module} {s s' : σ}
    (h : loadWorkingSet load catalog entry s = (.ok modules, s')) :
    (modules.map Module.name).Nodup := by
  obtain ⟨first, rest, rfl, hfirst, hrest⟩ := workingSet_names hload h
  rw [List.map_cons, hfirst, hrest]
  exact siblings_nodup catalog entry first

end

/-! ## Failures after loading -/

/-- The error is not about which modules there are. -/
def CompileError.ofOneModule : CompileError → Bool
  | duplicateDefinition .moduleName _ => false
  | missingModule _ => false
  | link _ _ _ => false
  | _ => true

theorem CompileError.ofOneModule_of_code {e : CompileError} (h : e.ofCode = true) :
    e.ofOneModule = true := by
  cases e with
  | duplicateDefinition kind name =>
    cases kind with
    | moduleName => cases h
    | _ => rfl
  | missingModule _ | link _ _ _ => cases h
  | _ => rfl

theorem CompileError.ofOneModule_of_content {e : CompileError} (h : e.ofContent = true) :
    e.ofOneModule = true := by
  cases e with
  | duplicateDefinition _ _ | missingModule _ | link _ _ _ => cases h
  | _ => rfl

theorem CompileError.root_of_ofOneModule {e : CompileError} (h : e.ofOneModule = true) :
    (∀ name, e.root ≠ .duplicateDefinition .moduleName name) ∧
      ∀ source, e.root ≠ .missingModule source := by
  cases e with
  | duplicateDefinition kind name =>
    refine ⟨fun name heq => ?_, by simp [root]⟩
    cases heq
    cases h
  | missingModule _ | link _ _ _ => cases h
  | _ => simp [root]

theorem Module.extract_error_ofOneModule {m : Module} {base : Nat} {e : CompileError}
    (h : m.extract base = .error e) : e.ofOneModule = true := by
  obtain ⟨kind, name, rfl, hclash⟩ | hcontent := extract_error h
  · cases hclash <;> rfl
  · exact CompileError.ofOneModule_of_content hcontent

theorem extractAll_error {base : Nat} {modules : List Module} {e : CompileError}
    (h : extractAll base modules = .error e) : e.ofOneModule = true := by
  induction modules generalizing base with
  | nil => cases h
  | cons m rest ih =>
    obtain hfirst | ⟨info, -, h⟩ := bind_error.mp h
    · exact Module.extract_error_ofOneModule hfirst
    · obtain hrest | ⟨_, -, h⟩ := bind_error.mp h
      · exact ih hrest
      · cases h

section

variable {catalog : Catalog} {base : Nat} {memory : Wat.MemoryImport} {modules : List Module}
variable {infos linked : List ModuleInfo} {e : CompileError}

/-- An import that has no module: who makes it, and of what. -/
structure Module.Misses (m : Module) (catalog : Catalog) (modules : List Module)
    (name source : String) : Prop where
  imported : (source, name) ∈ m.importedNames
  not_catalog : catalog.get? source = none
  not_loaded : source ∉ modules.map Module.name

/-- Linking fails on an import of some module. A module is missing if neither the catalog nor the
set has it. -/
theorem link_error_of_extracted (hnames : (modules.map Module.name).Nodup)
    (hextract : extractAll base modules = .ok infos) (h : link infos catalog = .error e) :
    ∃ m ∈ modules, ∃ name reason, e = .link m.name name reason ∧
      (∀ kind other, reason.root ≠ .duplicateDefinition kind other) ∧
      ∀ source, reason.root = .missingModule source →
        reason = .missingModule source ∧ m.Misses catalog modules name source := by
  rw [← extractAll_names hextract] at hnames
  obtain ⟨before, info, after, key, reason, hsplit, -, hfirst, rfl⟩ := link_error hnames h
  have hinfo : info ∈ infos := by simp [hsplit]
  obtain ⟨m, hm, hname⟩ := exists_source hextract hinfo
  rw [extractAll_names hextract] at hnames
  obtain ⟨b, hb⟩ := extract_of_name hnames hextract hm hinfo hname
  -- The import comes from the module itself: linking does not add any.
  obtain ⟨_, i, _, hunresolved, -, hrefuses⟩ := hfirst
  have hentry : (key, i) ∈ info.imports.entries := by
    have hmem : (key, i) ∈ info.unresolved := by simp [hunresolved]
    exact (List.mem_filter.mp hmem).1
  rw [(Module.extract_records hb).imports] at hentry
  obtain ⟨⟨source, name⟩, himported, heq⟩ := List.mem_map.mp hentry
  cases heq
  refine ⟨m, hm, key, reason, by rw [hname], ?_⟩
  cases hrefuses with
  | stdlib | member => exact ⟨fun _ _ => by simp [CompileError.root], fun _ hroot => by cases hroot⟩
  | missing hcatalog hmissing =>
    refine ⟨fun _ _ => by simp [CompileError.root], fun source' hroot => ?_⟩
    cases hroot
    refine ⟨rfl, himported, hcatalog, ?_⟩
    rw [← extractAll_names hextract]
    intro hloaded
    obtain ⟨other, hother, hsame⟩ := List.mem_map.mp hloaded
    exact hmissing other hother hsame

/-- Every module that was linked can be found again, and making code fails for reasons of code. -/
theorem lowerAll_error (hnames : (modules.map Module.name).Nodup)
    (hextract : extractAll base modules = .ok infos) (hlink : link infos catalog = .ok linked)
    {labels : LabelSupply} {sources : List Module} (hsources : ∀ m ∈ sources, m ∈ modules)
    (h : lowerAll memory linked labels sources = .error e) : e.ofOneModule = true := by
  induction sources generalizing labels with
  | nil => cases h
  | cons m rest ih =>
    obtain ⟨hm, hrest⟩ := List.forall_mem_cons.mp hsources
    unfold lowerAll at h
    cases hfind : linked.find? (fun info => info.name == m.name) with
    | none =>
      -- Linking keeps the names of modules.
      have hmem : m.name ∈ linked.map ModuleInfo.name := by
        rw [link_names hlink, extractAll_names hextract]
        exact List.mem_map_of_mem hm
      obtain ⟨info, hinfo, hname⟩ := List.mem_map.mp hmem
      have hnone := List.find?_eq_none.mp hfind info hinfo
      simp [hname] at hnone
    | some info' =>
      simp only [hfind] at h
      have hname' : info'.name = m.name := by simpa using List.find?_some hfind
      -- Apart from its imports it is as extracted, with a place for every literal.
      obtain ⟨info, hinfo, hname⟩ := exists_info hextract hm
      obtain ⟨b, hb⟩ := extract_of_name hnames hextract hm hinfo hname
      have hlinks := Linker.links_of_name hlink hinfo (List.mem_of_find?_eq_some hfind)
        (hname'.trans hname.symm)
      have hfails : EStateM.FailsInCode (fun e => e) (Lower.lowerModule memory m.arena info') := by
        rw [hlinks.rest]
        exact Lower.lowerModule_failsInCode (Module.extract_supplied hb info'.imports)
          (fun _ hentry => Module.contains_function hb hentry) memory
      cases hlower : Lower.lowerModule memory m.arena info' { labels } with
      | error e' s =>
        simp only [hlower] at h
        cases h
        exact CompileError.ofOneModule_of_code (hfails _ _ _ hlower)
      | ok wat s =>
        simp only [hlower] at h
        obtain hothers | ⟨_, -, h⟩ := bind_error.mp h
        · exact ih hrest hothers
        · cases h

theorem compileModules_error (hnames : (modules.map Module.name).Nodup)
    (h : compileModules catalog base memory modules = .error e) :
    e.ofOneModule = true ∨
      ∃ m ∈ modules, ∃ name reason, e = .link m.name name reason ∧
        (∀ kind other, reason.root ≠ .duplicateDefinition kind other) ∧
        ∀ source, reason.root = .missingModule source →
          reason = .missingModule source ∧ m.Misses catalog modules name source := by
  obtain hextract | ⟨infos, hextract, h⟩ := bind_error.mp h
  · exact .inl (extractAll_error hextract)
  obtain hlink | ⟨linked, hlink, h⟩ := bind_error.mp h
  · exact .inr (link_error_of_extracted hnames hextract hlink)
  rw [emitAll_eq] at h
  cases hlower : lowerAll memory linked {} (sortByName modules) with
  | ok targets =>
    rw [hlower] at h
    cases h
  | error e' =>
    rw [hlower] at h
    cases h
    exact .inl (lowerAll_error hnames hextract hlink (fun _ => mem_sortByName.mp) hlower)

/-- Linked modules miss nothing. -/
theorem not_misses_of_link (hnames : (modules.map Module.name).Nodup)
    (hextract : extractAll base modules = .ok infos) (hlink : link infos catalog = .ok linked)
    {m : Module} (hm : m ∈ modules) (name source : String) :
    ¬m.Misses catalog modules name source := by
  intro hmisses
  obtain ⟨info, hinfo, hname⟩ := exists_info hextract hm
  obtain ⟨b, hb⟩ := extract_of_name hnames hextract hm hinfo hname
  have hentry : ImportEntry.unlinked source name ∈ info.imports.entries := by
    rw [(Module.extract_records hb).imports]
    exact List.mem_map_of_mem (f := fun x => ImportEntry.unlinked x.1 x.2) hmisses.imported
  have hunresolved : ImportEntry.unlinked source name ∈ info.unresolved :=
    List.mem_filter.mpr ⟨hentry, rfl⟩
  obtain ⟨d, hprovides⟩ := (link_succeeds_iff.mp ⟨linked, hlink⟩).2 info hinfo _ hunresolved
  cases hprovides with
  | stdlib stdlib hsource =>
    rw [show (ImportEntry.unlinked source name).2.source = source from rfl,
      hmisses.not_catalog] at hsource
    cases hsource
  | member other hsource hother hsame =>
    apply hmisses.not_loaded
    rw [← extractAll_names hextract]
    exact List.mem_map.mpr ⟨other, hother, hsame⟩

/-! ## Programs -/

theorem sortByName_names (hnames : (modules.map Module.name).Nodup) :
    ((sortByName modules).map Module.name).Pairwise (· < ·) := by
  have hsorted : ((sortByName modules).map Module.name).Pairwise (· ≤ ·) := by
    rw [List.pairwise_map]
    refine (List.pairwise_mergeSort ?_ ?_ modules).imp fun h => of_decide_eq_true h
    · intro a b c hab hbc
      exact decide_eq_true (String.le_trans (of_decide_eq_true hab) (of_decide_eq_true hbc))
    · intro a b
      simpa using String.le_total a.name b.name
  have hdifferent : ((sortByName modules).map Module.name).Nodup :=
    ((List.mergeSort_perm modules _).map _).nodup_iff.mpr hnames
  exact hsorted.imp₂ (fun _ _ hle hne => lt_of_le_of_ne hle hne) hdifferent

end

theorem compile_error {σ : Type} {load : String → StateM σ (Except LoadError Module)}
    {catalog : Catalog} {base : Nat} {memory : Wat.MemoryImport} {entry : String} {s s' : σ}
    {e : CompileError} (h : compile load catalog base memory entry s = (.error (.compile e), s')) :
    ∃ modules, loadWorkingSet load catalog entry s = (.ok modules, s') ∧
      compileModules catalog base memory modules = .error e := by
  obtain ⟨loaded, t, hloaded⟩ : ∃ loaded t, loadWorkingSet load catalog entry s = (loaded, t) :=
    ⟨_, _, rfl⟩
  rw [compile, bind_of_run hloaded] at h
  cases loaded with
  | error e => cases h
  | ok modules =>
    dsimp only at h
    cases hcompiled : compileModules catalog base memory modules with
    | ok texts =>
      rw [hcompiled] at h
      cases h
    | error e =>
      rw [hcompiled] at h
      cases h
      exact ⟨modules, hloaded, hcompiled⟩

/-- The entry misses nothing: what it imports from is in the catalog or has been loaded for it. -/
theorem mem_rest_of_misses {catalog : Catalog} {first m : Module} {rest : List Module}
    {name source : String} (hrest : rest.map Module.name = siblings catalog first.name first)
    (hm : m ∈ first :: rest) (h : m.Misses catalog (first :: rest) name source) : m ∈ rest := by
  rcases List.mem_cons.mp hm with rfl | hm
  · exfalso
    have hloaded := h.not_loaded
    rw [List.map_cons, hrest, List.mem_cons, not_or] at hloaded
    exact hloaded.2 (mem_siblings.mpr ⟨Module.mem_importSources h.imported, hloaded.1,
      h.not_catalog⟩)
  · exact hm

/-- A working set is the entry and what it imports from, each module once. Compiling it does not
fail for a name that two modules share, nor for want of a module, except that a module besides the
entry imports from one that is neither in the catalog nor in the set. A compiled program has one
text for each module, in ascending order of names; what stands under the name of a module is the
text of what this module became. -/
theorem workingSet_compiled_by_name {σ : Type}
    {load : String → StateM σ (Except LoadError Module)} (hload : LoadsByName load)
    (catalog : Catalog) (base : Nat) (memory : Wat.MemoryImport) (entry : String) (s : σ) :
    (∀ modules s', loadWorkingSet load catalog entry s = (.ok modules, s') →
      (modules.map Module.name).Nodup ∧
      ∃ first rest t, modules = first :: rest ∧ load entry s = (.ok first, t) ∧
        first.name = entry ∧
        Loads load t (siblings catalog entry first) rest s' ∧
        rest.map Module.name =
          (first.importDecls.map ImportDecl.source).eraseDups.filter fun source =>
            source != entry && !catalog.contains source) ∧
    (∀ e s', compile load catalog base memory entry s = (.error (.compile e), s') →
      (∀ name, e.root ≠ .duplicateDefinition .moduleName name) ∧
      (∀ source, e ≠ .missingModule source) ∧
      ∀ source, e.root = .missingModule source →
        ∃ first rest, loadWorkingSet load catalog entry s = (.ok (first :: rest), s') ∧
          ∃ m ∈ rest, ∃ name, e = .link m.name name (.missingModule source) ∧
            m.Misses catalog (first :: rest) name source) ∧
    ∀ program s', compile load catalog base memory entry s = (.ok program, s') →
      program.entry = entry ∧ (program.modules.map Prod.fst).Pairwise (· < ·) ∧
      ∃ modules infos, loadWorkingSet load catalog entry s = (.ok modules, s') ∧
        extractAll base modules = .ok infos ∧
        (program.modules.map Prod.fst).Perm (modules.map Module.name) ∧
        (∀ m ∈ modules, ∃ info ∈ infos, ∃ wat, (m.name, wat.text) ∈ program.modules ∧
          Nonempty (Built catalog infos memory m info wat)) ∧
        ∀ m ∈ modules, ∀ name source, ¬m.Misses catalog modules name source := by
  refine ⟨?_, ?_, ?_⟩
  · intro modules s' h
    obtain ⟨first, rest, t, rfl, hfirst, hrest⟩ := loadWorkingSet_ok.mp h
    exact ⟨workingSet_names_nodup hload h, first, rest, t, rfl, hfirst, hload _ _ _ _ hfirst,
      hrest, (hrest.names hload).trans (siblings_eq catalog entry first)⟩
  · intro e s' h
    obtain ⟨modules, hmodules, hcompiled⟩ := compile_error h
    have hnames := workingSet_names_nodup hload hmodules
    obtain hone | ⟨m, hm, name, reason, rfl, hduplicate, hmissing⟩ :=
      compileModules_error hnames hcompiled
    -- A failure within one module is none of the two kinds.
    · obtain ⟨hduplicate, hmissing⟩ := CompileError.root_of_ofOneModule hone
      refine ⟨hduplicate, ?_, fun source hroot => absurd hroot (hmissing source)⟩
      rintro source rfl
      cases hone
    · refine ⟨fun other => hduplicate .moduleName other, by simp, fun source hroot => ?_⟩
      obtain ⟨rfl, hmisses⟩ := hmissing source hroot
      obtain ⟨first, rest, rfl, rfl, hrest⟩ := workingSet_names hload hmodules
      exact ⟨first, rest, hmodules, m, mem_rest_of_misses hrest hm hmisses, name, rfl, hmisses⟩
  · intro program s' h
    obtain ⟨modules, hmodules, targets, htargets, rfl⟩ := compile_ok.mp h
    have hnames := workingSet_names_nodup hload hmodules
    obtain ⟨infos, linked, hextract, hlink, hlower⟩ := targetModules_ok htargets
    -- Texts are in the order in which modules were lowered, which is that of their names.
    have htextNames : (targetTexts targets).map Prod.fst =
        (sortByName modules).map Module.name := by
      rw [← lowerAll_names hlower, targetTexts, List.map_map]
      rfl
    refine ⟨rfl, ?_, modules, infos, hmodules, hextract, ?_, ?_, ?_⟩
    · rw [htextNames]
      exact sortByName_names hnames
    · rw [htextNames]
      exact (List.mergeSort_perm modules _).map _
    · intro m hm
      obtain ⟨info, hinfo, hname⟩ := exists_info hextract hm
      obtain ⟨wat, hwat⟩ := exists_target hlower hm
      exact ⟨info, hinfo, wat, List.mem_map_of_mem hwat,
        built_of_mem hextract hlink hlower hm hinfo hname hwat⟩
    · exact fun m hm => not_misses_of_link hnames hextract hlink hm

/-- Imports from itself, from the catalog, and twice from one module. -/
def orchard : Module where
  name := "orchard"
  items := [0, 1, 2, 3, 4]
  arena := {
    stmts := #[
      .struct ⟨"Tree", [⟨"height", .i32⟩], true⟩,
      .importing ⟨"cellar", ["casks"]⟩,
      .importing ⟨"orchard", ["Tree"]⟩,
      .importing ⟨"math", ["sqrt"]⟩,
      .importing ⟨"cellar", ["shelves"]⟩] }

/-- Imports back from the entry. -/
def cellar : Module where
  name := "cellar"
  items := [0, 1, 2]
  arena := {
    exprs := #[.int 3]
    stmts := #[
      .importing ⟨"orchard", ["Tree"]⟩,
      .letting ⟨"casks", none, 0, true⟩,
      .letting ⟨"shelves", none, 0, true⟩] }

/-- The same with an import from a module that nobody loads. -/
def leakyCellar : Module :=
  { cellar with
    items := [3, 0, 1, 2]
    arena := cellar.arena.pushStmt (.importing ⟨"well", ["water"]⟩) }

def loadOrchard (below : Module) (name : String) : StateM Unit (Except LoadError Module) :=
  pure (loadFrom [orchard, below] name)

/-- With the one the program compiles, and with the other a module is missing. -/
theorem orchard_compiled :
    ([orchard, cellar].map Module.name).Nodup ∧
    (∃ program, compile (loadOrchard cellar) mathCatalog 16 {} "orchard" () = (.ok program, ()) ∧
      (program.modules.map Prod.fst).Perm ["orchard", "cellar"] ∧
      (program.modules.map Prod.fst).Pairwise (· < ·)) ∧
    ∃ e, compile (loadOrchard leakyCellar) mathCatalog 16 {} "orchard" () =
        (.error (.compile e), ()) ∧ e.root = .missingModule "well" ∧
      leakyCellar.Misses mathCatalog [orchard, leakyCellar] "water" "well" := by
  have hload (below : Module) : LoadsByName (loadOrchard below) :=
    loadFrom_loadsByName [orchard, below]
  obtain ⟨hnames, -, hprogram⟩ :=
    workingSet_compiled_by_name (hload cellar) mathCatalog 16 {} "orchard" ()
  obtain ⟨-, hfault, -⟩ :=
    workingSet_compiled_by_name (hload leakyCellar) mathCatalog 16 {} "orchard" ()
  have hset : loadWorkingSet (loadOrchard cellar) mathCatalog "orchard" () =
      (.ok [orchard, cellar], ()) := rfl
  have hleaky : loadWorkingSet (loadOrchard leakyCellar) mathCatalog "orchard" () =
      (.ok [orchard, leakyCellar], ()) := rfl
  refine ⟨(hnames _ _ hset).1, ?_, ?_⟩
  · have hsort : sortByName [orchard, cellar] = [cellar, orchard] := by
      simp [sortByName, List.mergeSort, List.MergeSort.Internal.splitInTwo, orchard, cellar]
    have hsome : (targetModules mathCatalog 16 {} [orchard, cellar]).toOption.isSome = true := by
      unfold targetModules
      rw [hsort]
      decide +kernel
    obtain ⟨targets, htargets⟩ := Option.isSome_iff_exists.mp hsome
    have hcompile := compile_ok.mpr ⟨_, hset, _, eq_ok_iff.mpr htargets, rfl⟩
    obtain ⟨-, hsorted, modules, infos, hmodules, -, hperm, -⟩ := hprogram _ _ hcompile
    rw [hset] at hmodules
    cases hmodules
    exact ⟨_, hcompile, hperm, hsorted⟩
  · have hfails : compile (loadOrchard leakyCellar) mathCatalog 16 {} "orchard" () =
        (.error (.compile (.link "cellar" "water" (.missingModule "well"))), ()) := by
      have hlink : compileModules mathCatalog 16 {} [orchard, leakyCellar] =
          .error (.link "cellar" "water" (.missingModule "well")) := by decide +kernel
      rw [compile, bind_of_run hleaky]
      dsimp only
      rw [hlink]
      rfl
    obtain ⟨-, -, hmissing⟩ := hfault _ _ hfails
    obtain ⟨first, rest, hmodules, m, hm, name, heq, hmisses⟩ := hmissing "well" rfl
    rw [hleaky] at hmodules
    cases hmodules
    obtain rfl := List.mem_singleton.mp hm
    cases heq
    exact ⟨_, hfails, rfl, hmisses⟩

end WasmBackend
