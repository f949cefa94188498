import Mathlib.Data.List.Nodup
import WasmBackend.Build.Program
import WasmBackend.Proofs.Modules.Parts
import WasmBackend.Proofs.Symbols.Linking

/-!
# The stages of a compilation

A working set is extracted module by module, linked, and lowered in the order of names. The texts of
a program are those of the target modules that the last stage makes (`targetModules`), so what is to
be said about the texts can be said about these.

`Built` collects what happened to one module on the way. How a stage can fail is left to
`Program.WorkingSet`.
-/

namespace WasmBackend

open Compiled Lower

/-! ## Target modules -/

/-- The target modules, in order, each under its name. -/
def lowerAll (memory : Wat.MemoryImport) (linked : List ModuleInfo) (labels : LabelSupply) :
    List Module → Compiled (List (String × Wat.Module))
  | [] => .ok []
  | m :: rest =>
    match linked.find? (fun info => info.name == m.name) with
    | none => .error (.missingModule m.name)
    | some info =>
      match lowerModule memory m.arena info { labels } with
      | .error e _ => .error e
      | .ok wat s => do return (m.name, wat) :: (← lowerAll memory linked s.labels rest)

/-- The target modules of a working set. -/
def targetModules (catalog : Catalog) (base : Nat) (memory : Wat.MemoryImport)
    (modules : List Module) : Compiled (List (String × Wat.Module)) := do
  let linked ← link (← extractAll base modules) catalog
  lowerAll memory linked {} (sortByName modules)

/-- The texts of target modules. -/
def targetTexts (targets : List (String × Wat.Module)) : List (String × String) :=
  targets.map fun t => (t.1, t.2.text)

theorem emitAll_eq (memory : Wat.MemoryImport) (linked : List ModuleInfo) (labels : LabelSupply)
    (modules : List Module) :
    emitAll memory linked labels modules =
      (lowerAll memory linked labels modules).map targetTexts := by
  induction modules generalizing labels with
  | nil => rfl
  | cons m rest ih =>
    unfold emitAll lowerAll
    cases linked.find? (fun info => info.name == m.name) with
    | none => rfl
    | some info =>
      cases hlower : lowerModule memory m.arena info { labels } with
      | error e s => simp only [hlower, Except.map]
      | ok wat s =>
        simp only [hlower, ih]
        cases lowerAll memory linked s.labels rest <;> rfl

/-- The texts of a program are those of its target modules. -/
theorem compileModules_eq (catalog : Catalog) (base : Nat) (memory : Wat.MemoryImport)
    (modules : List Module) :
    compileModules catalog base memory modules =
      (targetModules catalog base memory modules).map targetTexts := by
  unfold compileModules targetModules
  cases extractAll base modules with
  | error e => rfl
  | ok infos =>
    cases hlink : link infos catalog with
    | error e =>
      simp only [ok_bind, hlink]
      rfl
    | ok linked =>
      simp only [ok_bind, hlink]
      exact emitAll_eq memory linked {} (sortByName modules)

theorem compileModules_of_targets {catalog : Catalog} {base : Nat} {memory : Wat.MemoryImport}
    {modules : List Module} {targets : List (String × Wat.Module)}
    (h : (targetModules catalog base memory modules).toOption = some targets) :
    compileModules catalog base memory modules = .ok (targetTexts targets) := by
  rw [compileModules_eq, eq_ok_iff.mpr h]
  rfl

/-- A compiled program is made of the texts of the target modules of the working set. -/
theorem compile_ok {σ : Type} {load : String → StateM σ (Except LoadError Module)}
    {catalog : Catalog} {base : Nat} {memory : Wat.MemoryImport} {entry : String} {s s' : σ}
    {program : Program} :
    compile load catalog base memory entry s = (.ok program, s') ↔
      ∃ modules, loadWorkingSet load catalog entry s = (.ok modules, s') ∧
        ∃ targets, targetModules catalog base memory modules = .ok targets ∧
          program = ⟨entry, targetTexts targets⟩ := by
  unfold compile
  show StateT.bind (m := Id) (loadWorkingSet load catalog entry) _ s = _ ↔ _
  unfold StateT.bind
  generalize loadWorkingSet load catalog entry s = loaded
  obtain ⟨result, s₁⟩ := loaded
  cases result with
  | error e =>
    constructor
    · intro h
      cases h
    · rintro ⟨modules, hload, -⟩
      cases hload
  | ok modules =>
    simp only [bind, compileModules_eq]
    constructor
    · intro h
      cases htargets : targetModules catalog base memory modules with
      | error e =>
        rw [htargets] at h
        cases h
      | ok targets =>
        rw [htargets] at h
        cases h
        exact ⟨modules, rfl, targets, htargets, rfl⟩
    · rintro ⟨modules, hload, targets, htargets, rfl⟩
      cases hload
      rw [htargets]
      rfl

theorem targetModules_ok {catalog : Catalog} {base : Nat} {memory : Wat.MemoryImport}
    {modules : List Module} {targets : List (String × Wat.Module)}
    (h : targetModules catalog base memory modules = .ok targets) :
    ∃ infos linked, extractAll base modules = .ok infos ∧ link infos catalog = .ok linked ∧
      lowerAll memory linked {} (sortByName modules) = .ok targets := by
  simp only [targetModules, bind_ok] at h
  obtain ⟨infos, hinfos, linked, hlinked, hlowered⟩ := h
  exact ⟨infos, linked, hinfos, hlinked, hlowered⟩

/-! ## One module -/

theorem extractAll_ok {base : Nat} {modules : List Module} {infos : List ModuleInfo}
    (h : extractAll base modules = .ok infos) :
    List.Forall₂ (fun m info => ∃ base, m.extract base = .ok info) modules infos := by
  induction modules generalizing base infos with
  | nil =>
    cases h
    exact .nil
  | cons m rest ih =>
    simp only [extractAll, bind_ok, pure_ok] at h
    obtain ⟨info, hinfo, others, hothers, rfl⟩ := h
    exact .cons ⟨base, hinfo⟩ (ih hothers)

/-- What became of one module of a working set. -/
structure Built (catalog : Catalog) (infos : List ModuleInfo) (memory : Wat.MemoryImport)
    (m : Module) (info : ModuleInfo) (wat : Wat.Module) where
  base : Nat
  linked : ModuleInfo
  extracted : m.extract base = .ok info
  links : Linker.Links catalog infos info linked
  lowered : ∃ labels s, lowerModule memory m.arena linked { labels } = .ok wat s

theorem Built.lowers {catalog : Catalog} {infos : List ModuleInfo} {memory : Wat.MemoryImport}
    {m : Module} {info : ModuleInfo} {wat : Wat.Module}
    (b : Built catalog infos memory m info wat) : ModuleLowers memory m.arena b.linked wat := by
  obtain ⟨labels, s, h⟩ := b.lowered
  exact lowerModule_ok h

section

variable {catalog : Catalog} {base : Nat} {memory : Wat.MemoryImport} {modules : List Module}
variable {targets : List (String × Wat.Module)} {infos linked : List ModuleInfo}

/-- Extracted modules bear the names of their sources. -/
theorem extractAll_names (h : extractAll base modules = .ok infos) :
    infos.map ModuleInfo.name = modules.map Module.name := by
  refine (map_eq_of_forall₂ (extractAll_ok h) ?_).symm
  rintro m info ⟨_, hinfo⟩
  exact (Module.extract_records hinfo).name.symm

theorem mem_sortByName {m : Module} : m ∈ sortByName modules ↔ m ∈ modules :=
  List.mem_mergeSort

/-- Different modules have different names. -/
theorem modules_names_nodup (hextract : extractAll base modules = .ok infos)
    (hlink : link infos catalog = .ok linked) : (modules.map Module.name).Nodup := by
  rw [← extractAll_names hextract]
  exact (Linker.link_ok hlink).1

theorem exists_info (h : extractAll base modules = .ok infos) {m : Module} (hm : m ∈ modules) :
    ∃ info ∈ infos, info.name = m.name := by
  have hname : m.name ∈ infos.map ModuleInfo.name := by
    rw [extractAll_names h]
    exact List.mem_map_of_mem hm
  simpa using hname

theorem exists_source (h : extractAll base modules = .ok infos) {info : ModuleInfo}
    (hinfo : info ∈ infos) : ∃ m ∈ modules, info.name = m.name := by
  have hname : info.name ∈ modules.map Module.name := by
    rw [← extractAll_names h]
    exact List.mem_map_of_mem hinfo
  simpa [eq_comm] using hname

/-- With different names, an extracted module is that of the source with its name. -/
theorem extract_of_name (hnames : (modules.map Module.name).Nodup)
    (h : extractAll base modules = .ok infos) {m : Module} (hm : m ∈ modules) {info : ModuleInfo}
    (hinfo : info ∈ infos) (hname : info.name = m.name) : ∃ b, m.extract b = .ok info := by
  obtain ⟨m', hm', b, hb⟩ := exists_of_forall₂_right (extractAll_ok h) hinfo
  obtain rfl : m' = m := List.inj_on_of_nodup_map hnames hm' hm
    ((Module.extract_records hb).name.symm.trans hname)
  exact ⟨b, hb⟩

variable {labels : LabelSupply}

theorem lowerAll_cons_ok {m : Module}
    (h : lowerAll memory linked labels (m :: modules) = .ok targets) :
    ∃ info wat s others, linked.find? (fun info => info.name == m.name) = some info ∧
      lowerModule memory m.arena info { labels } = .ok wat s ∧
      lowerAll memory linked s.labels modules = .ok others ∧ targets = (m.name, wat) :: others := by
  unfold lowerAll at h
  cases hfind : linked.find? (fun info => info.name == m.name) with
  | none => simp [hfind] at h
  | some info =>
    simp only [hfind] at h
    cases hlower : lowerModule memory m.arena info { labels } with
    | error e s => simp [hlower] at h
    | ok wat s =>
      simp only [hlower, bind_ok, pure_ok] at h
      obtain ⟨others, hothers, rfl⟩ := h
      exact ⟨info, wat, s, others, rfl, hlower, hothers, rfl⟩

theorem lowerAll_ok (h : lowerAll memory linked labels modules = .ok targets) :
    List.Forall₂ (fun m t => t.1 = m.name ∧ ∃ info ∈ linked, info.name = m.name ∧
      ∃ labels s, lowerModule memory m.arena info { labels } = .ok t.2 s) modules targets := by
  induction modules generalizing labels targets with
  | nil =>
    cases h
    exact .nil
  | cons m rest ih =>
    obtain ⟨info, wat, s, others, hfind, hlower, hothers, rfl⟩ := lowerAll_cons_ok h
    refine .cons ⟨rfl, info, List.mem_of_find?_eq_some hfind, ?_, labels, s, hlower⟩ (ih hothers)
    simpa using List.find?_some hfind

/-- Target modules stand under the names of their sources, in ascending order. -/
theorem lowerAll_names (h : lowerAll memory linked labels modules = .ok targets) :
    targets.map Prod.fst = modules.map Module.name :=
  (map_eq_of_forall₂ (lowerAll_ok h) fun _ _ ht => ht.1.symm).symm

/-- Every module of the working set has a target module. -/
theorem exists_target (hlower : lowerAll memory linked {} (sortByName modules) = .ok targets)
    {m : Module} (hm : m ∈ modules) : ∃ wat, (m.name, wat) ∈ targets := by
  have hname : m.name ∈ targets.map Prod.fst := by
    rw [lowerAll_names hlower]
    exact List.mem_map_of_mem (mem_sortByName.mpr hm)
  simpa using hname

/-- What became of a module, found by its name among the target modules. -/
theorem built_of_mem (hextract : extractAll base modules = .ok infos)
    (hlink : link infos catalog = .ok linked)
    (hlower : lowerAll memory linked {} (sortByName modules) = .ok targets)
    {m : Module} (hm : m ∈ modules) {info : ModuleInfo} (hinfo : info ∈ infos)
    (hname : info.name = m.name) {wat : Wat.Module} (hwat : (m.name, wat) ∈ targets) :
    Nonempty (Built catalog infos memory m info wat) := by
  have hnodup := modules_names_nodup hextract hlink
  obtain ⟨b, hb⟩ := extract_of_name hnodup hextract hm hinfo hname
  -- The source of the target module.
  obtain ⟨m', hm', hn, info', hinfo', hname', hlowered⟩ :=
    exists_of_forall₂_right (lowerAll_ok hlower) hwat
  obtain rfl : m = m' := List.inj_on_of_nodup_map hnodup hm (mem_sortByName.mp hm') hn
  exact ⟨b, info', hb, Linker.links_of_name hlink hinfo hinfo' (hname'.trans hname.symm), hlowered⟩

/-- What became of the source of a target module. -/
theorem built_of_target (hextract : extractAll base modules = .ok infos)
    (hlink : link infos catalog = .ok linked)
    (hlower : lowerAll memory linked {} (sortByName modules) = .ok targets)
    {t : String × Wat.Module} (ht : t ∈ targets) :
    ∃ m ∈ modules, t.1 = m.name ∧ ∃ info ∈ infos, info.name = m.name ∧
      Nonempty (Built catalog infos memory m info t.2) := by
  obtain ⟨m, hm, hname, -⟩ := exists_of_forall₂_right (lowerAll_ok hlower) ht
  have hm := mem_sortByName.mp hm
  obtain ⟨info, hinfo, hinfoName⟩ := exists_info hextract hm
  refine ⟨m, hm, hname, info, hinfo, hinfoName, ?_⟩
  exact built_of_mem hextract hlink hlower hm hinfo hinfoName (by rwa [← hname])

end

end WasmBackend
