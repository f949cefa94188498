import WasmBackend.Proofs.Data.Allocation
import WasmBackend.Proofs.Data.Reading
import WasmBackend.Proofs.Program.Names

/-!
# The constant data of a program

What the texts of a program say about constant data is what was allocated for its modules, and
nothing of it overlaps, within a module or across modules (`compiled_data_laid_out`).

Names are printed as they are. One with a line break in it can put a line of its own into a text,
and that line may read as data; so the names have to be ruled out first. What the bytes mean is left
out.
-/

namespace WasmBackend

open Compiled Lower Text

/-- The blocks that are written out. An empty string has an address but no bytes. -/
def DataImage.stored (d : DataImage) : List DataBlock :=
  d.segments.filter fun b => !b.bytes.isEmpty

section

variable {catalog : Catalog} {base : Nat} {memory : Wat.MemoryImport} {modules : List Module}
variable {targets : List (String × Wat.Module)} {infos linked : List ModuleInfo}

/-! ## Target modules -/

/-- A target module holds what was allocated for its source. -/
theorem Built.data_eq {m : Module} {info : ModuleInfo} {wat : Wat.Module}
    (b : Built catalog infos memory m info wat) : wat.data = info.data.stored := by
  rw [b.lowers.parts, b.links.rest]
  rfl

/-- Module by module, the target modules hold what was allocated. The two lists differ in their
order: data is allocated in the order of loading. -/
theorem targets_data (hextract : extractAll base modules = .ok infos)
    (hlink : link infos catalog = .ok linked)
    (hlower : lowerAll memory linked {} (sortByName modules) = .ok targets) :
    (targets.map fun t => (t.1, t.2.data)).Perm
      (infos.map fun info => (info.name, info.data.stored)) := by
  have hinfos : (infos.map ModuleInfo.name).Nodup := (Linker.link_ok hlink).1
  have htargets : (targets.map Prod.fst).Nodup := by
    rw [lowerAll_names hlower]
    refine (List.Perm.nodup_iff ?_).mpr (modules_names_nodup hextract hlink)
    exact (List.mergeSort_perm modules _).map _
  refine (List.perm_ext_iff_of_nodup ?_ ?_).mpr ?_
  · refine List.Nodup.of_map Prod.fst ?_
    rw [List.map_map]
    exact htargets
  · refine List.Nodup.of_map Prod.fst ?_
    rw [List.map_map]
    exact hinfos
  · intro e
    simp only [List.mem_map]
    constructor
    · rintro ⟨t, ht, rfl⟩
      obtain ⟨m, -, hname, info, hinfo, hinfoName, ⟨b⟩⟩ := built_of_target hextract hlink hlower ht
      exact ⟨info, hinfo, by rw [hinfoName, hname, b.data_eq]⟩
    · rintro ⟨info, hinfo, rfl⟩
      obtain ⟨m, hm, hname⟩ := exists_source hextract hinfo
      obtain ⟨wat, hmem⟩ := exists_target hlower hm
      obtain ⟨b⟩ := built_of_mem hextract hlink hlower hm hinfo hname hmem
      exact ⟨(m.name, wat), hmem, by rw [hname, b.data_eq]⟩

/-- The texts of target modules read as their data. -/
theorem targets_read (hnames : OneLineNames catalog memory modules)
    (hextract : extractAll base modules = .ok infos) (hlink : link infos catalog = .ok linked)
    (hlower : lowerAll memory linked {} (sortByName modules) = .ok targets) :
    ∀ t ∈ targets, dataBlocks t.2.text.toList = t.2.data := by
  intro t ht
  obtain ⟨m, hm, -, info, -, -, ⟨b⟩⟩ := built_of_target hextract hlink hlower ht
  exact (b.forms hnames hextract hm).dataBlocks_eq

/-- All that is written out lies apart, from the base on. -/
theorem stored_laid (hextract : extractAll base modules = .ok infos) :
    DataBlock.Laid base addressSpace (infos.flatMap fun info => info.data.stored) := by
  obtain ⟨stop, -, hlaid⟩ := extractAll_data hextract
  have hsub : (infos.flatMap fun info => info.data.stored).Sublist
      (infos.flatMap fun info => info.data.segments) := by
    clear hlaid hextract
    induction infos with
    | nil => exact .slnil
    | cons info rest ih => exact List.filter_sublist.append ih
  have hstored := hlaid.sublist hsub
  exact
    { hstored with
      within := fun b hb => ⟨(hstored.within b hb).1, (hstored.limit b hb).le⟩ }

end

/-! ## Programs -/

/-- The constant data in the texts of a program is, module by module, what was allocated for its
modules, and lies apart between the base and the end of the address space. -/
theorem compiled_data_laid_out {σ : Type} {load : String → StateM σ (Except LoadError Module)}
    {catalog : Catalog} {base : Nat} {memory : Wat.MemoryImport} {entry : String} {s s' : σ}
    {program : Program} (h : compile load catalog base memory entry s = (.ok program, s'))
    (hnames : ∀ modules, loadWorkingSet load catalog entry s = (.ok modules, s') →
      OneLineNames catalog memory modules) :
    ∃ modules infos, loadWorkingSet load catalog entry s = (.ok modules, s') ∧
      extractAll base modules = .ok infos ∧
      (program.modules.map fun t => (t.1, dataBlocks t.2.toList)).Perm
        (infos.map fun info => (info.name, info.data.stored)) ∧
      DataBlock.Laid base addressSpace
        (program.modules.flatMap fun t => dataBlocks t.2.toList) := by
  obtain ⟨modules, hload, targets, htargets, rfl⟩ := compile_ok.mp h
  obtain ⟨infos, linked, hextract, hlink, hlower⟩ := targetModules_ok htargets
  have hread := targets_read (hnames modules hload) hextract hlink hlower
  have hperm := targets_data hextract hlink hlower
  have hmodules : ((targetTexts targets).map fun t => (t.1, dataBlocks t.2.toList)) =
      targets.map fun t => (t.1, t.2.data) := by
    rw [targetTexts, List.map_map]
    exact List.map_congr_left fun t ht => Prod.ext rfl (hread t ht)
  have hblocks : ((targetTexts targets).flatMap fun t => dataBlocks t.2.toList) =
      (targets.map fun t => (t.1, t.2.data)).flatMap Prod.snd := by
    rw [← hmodules, List.flatMap_map]
  refine ⟨modules, infos, hload, hextract, by rw [hmodules]; exact hperm, ?_⟩
  rw [hblocks]
  refine (stored_laid hextract).perm ?_
  have hflat := (hperm.symm).flatMap_right Prod.snd
  rwa [List.flatMap_map] at hflat

/-- Exports a text. -/
def shelf : Module where
  name := "shelf"
  items := [0]
  arena := {
    exprs := #[.str "on"]
    stmts := #[.letting ⟨"label", none, 0, true⟩] }

/-- Imports a text and has two of its own, one of them empty. -/
def reader : Module where
  name := "reader"
  items := [0, 1, 2]
  arena := {
    exprs := #[.str "hi", .str ""]
    stmts := #[
      .importing ⟨"shelf", ["label"]⟩,
      .letting ⟨"greeting", none, 0, false⟩,
      .letting ⟨"silence", none, 1, false⟩] }

def loadReader (name : String) : StateM Unit (Except LoadError Module) :=
  pure (.ok (if name = "reader" then reader else shelf))

theorem reader_data_laid_out :
    ∃ program infos, compile loadReader {} 16 {} "reader" () = (.ok program, ()) ∧
      extractAll 16 [reader, shelf] = .ok infos ∧
      (program.modules.map fun t => (t.1, dataBlocks t.2.toList)).Perm
        (infos.map fun info => (info.name, info.data.stored)) ∧
      DataBlock.Laid 16 addressSpace
        (program.modules.flatMap fun t => dataBlocks t.2.toList) := by
  have hload : loadWorkingSet loadReader {} "reader" () = (.ok [reader, shelf], ()) := rfl
  have hsort : sortByName [reader, shelf] = [reader, shelf] :=
    List.mergeSort_of_pairwise (by simp [reader, shelf])
  have hsome : (targetModules {} 16 {} [reader, shelf]).toOption.isSome = true := by
    unfold targetModules
    rw [hsort]
    decide +kernel
  obtain ⟨targets, htargets⟩ := Option.isSome_iff_exists.mp hsome
  have hcompile := compile_ok.mpr ⟨_, hload, _, eq_ok_iff.mpr htargets, rfl⟩
  have hnames : ∀ modules, loadWorkingSet loadReader {} "reader" () = (.ok modules, ()) →
      OneLineNames {} {} modules := by
    intro modules h
    rw [hload] at h
    cases h
    exact ⟨by decide, by decide, by decide⟩
  obtain ⟨modules, infos, hloaded, hextract, hperm, hlaid⟩ :=
    compiled_data_laid_out hcompile hnames
  rw [hload] at hloaded
  cases hloaded
  exact ⟨_, infos, hcompile, hextract, hperm, hlaid⟩

/-- A global whose name holds a line of its own. -/
def smuggler : Module where
  name := "smuggler"
  items := [0]
  arena := {
    exprs := #[.int 1]
    stmts := #[.letting ⟨"x\n(data (offset (i32.const 0)) \"\\00\")\n", none, 0, false⟩] }

def loadSmuggler (_ : String) : StateM Unit (Except LoadError Module) := pure (.ok smuggler)

/-- Nothing is allocated for this module, and yet its text reads as a block, below the base. -/
theorem smuggled_line_reads_as_data :
    ∃ program infos, compile loadSmuggler {} 16 {} "smuggler" () = (.ok program, ()) ∧
      extractAll 16 [smuggler] = .ok infos ∧ (∀ info ∈ infos, info.data.stored = []) ∧
      (program.modules.flatMap fun t => dataBlocks t.2.toList) = [⟨0, [0]⟩] := by
  let wat : Wat.Module := {
    memory := {}
    types := []
    imports := []
    globals := [⟨"x\n(data (offset (i32.const 0)) \"\\00\")\n", false, .i32, true, .intConst 1⟩]
    data := []
    funcs := [] }
  have hload : loadWorkingSet loadSmuggler {} "smuggler" () = (.ok [smuggler], ()) := rfl
  have htargets : (targetModules {} 16 {} [smuggler]).toOption = some [("smuggler", wat)] := by
    unfold targetModules sortByName
    rw [List.mergeSort_singleton]
    decide +kernel
  have hinfos : ((extractAll 16 [smuggler]).toOption.all fun infos =>
      infos.all fun info => info.data.stored = []) = true := by
    decide +kernel
  have hsome : (extractAll 16 [smuggler]).toOption.isSome = true := by decide +kernel
  obtain ⟨infos, hextract⟩ := Option.isSome_iff_exists.mp hsome
  have hblocks : dataBlocks wat.text.toList = [⟨0, [0]⟩] := by
    rw [Wat.Module.text_eq]
    decide +kernel
  have hcompile := compile_ok.mpr ⟨_, hload, _, eq_ok_iff.mpr htargets, rfl⟩
  refine ⟨_, infos, hcompile, eq_ok_iff.mpr hextract, ?_, ?_⟩
  · simpa [hextract] using hinfos
  · rw [targetTexts, List.map_singleton, List.flatMap_singleton, hblocks]

end WasmBackend
