import Mathlib.Data.List.Nodup
import WasmBackend.Proofs.Scoping.Body
import WasmBackend.Proofs.Scoping.Locals
import WasmBackend.Proofs.Stack.Declared
import WasmBackend.Proofs.Symbols.Linking

/-!
# Lowered modules are well scoped

In a lowered module no two functions have the same name, imported or defined, and neither have two
globals, two types, two exports, or two variables of one function. Every name that code uses is
declared in its name space, every branch goes to a label around it, and only mutable globals are
assigned to (`Wat.Module.WellScoped`).

The clash checks that extraction makes are few: functions against imports, and imports against
globals. They are enough because functions and globals live in different name spaces of the target,
and because a name space is filled from at most two tables. A module that defines a global and a
function of the same name is fine, as long as they are not both exported. Types are left out, those
of operands too.
-/

namespace WasmBackend

open Compiled Lower

/-! ## Names of a target module -/

/-- What the code of a function may name. -/
structure NameContext where
  functions : List String
  /-- Each with whether it may be assigned to. -/
  globals : List (String × Bool)
  locals : List String

/-- The instruction uses declared names only. A branch is judged by what is open around it and is
not admitted here. -/
def NameContext.Declares (c : NameContext) : Instr → Prop
  | .localGet name => name ∈ c.locals
  | .localSet name => name ∈ c.locals
  | .localTee name => name ∈ c.locals
  | .globalGet name => name ∈ c.globals.map Prod.fst
  | .globalSet name => (name, true) ∈ c.globals
  | .call name => name ∈ c.functions
  | .branch _ => False
  | .branchIf _ => False
  | _ => True

namespace Wat

def Import.function? (i : Import) : Option String :=
  match i.item with
  | .func _ => some i.name
  | .global _ _ => none

def Import.global? (i : Import) : Option (String × Bool) :=
  match i.item with
  | .func _ => none
  | .global _ isMutable => some (i.name, isMutable)

def Import.type? (i : Import) : Option String :=
  match i.item with
  | .func encoded => some encoded
  | .global _ _ => none

namespace Module

/-- The functions of a module, imported ones first. -/
def functionNames (w : Module) : List String :=
  w.imports.filterMap Import.function? ++ w.funcs.map Func.name

/-- The globals of a module, imported ones first, with their mutability. -/
def globalNames (w : Module) : List (String × Bool) :=
  w.imports.filterMap Import.global? ++ w.globals.map fun g => (g.name, g.mutable)

def typeNames (w : Module) : List String := w.types.map fun t => typeName t.encoded

def exportNames (w : Module) : List String :=
  (w.funcs.filter Func.exported).map Func.name ++
    (w.globals.filter Global.exported).map Global.name

/-- The types that the functions of a module refer to. -/
def usedTypes (w : Module) : List String :=
  (w.imports.filterMap Import.type? ++ w.funcs.map Func.encoded).map typeName

end Module

def Func.variableNames (f : Func) : List String := f.params.map Prod.fst ++ f.locals.map Prod.fst

/-- What the code of a function of the module may name. -/
def Module.context (w : Module) (f : Func) : NameContext :=
  ⟨w.functionNames, w.globalNames, f.variableNames⟩

/-- Names are different in each name space, and every use of one is declared. -/
structure Module.WellScoped (w : Module) : Prop where
  functions : w.functionNames.Nodup
  globals : (w.globalNames.map Prod.fst).Nodup
  types : w.typeNames.Nodup
  exports : w.exportNames.Nodup
  vars : ∀ f ∈ w.funcs, f.variableNames.Nodup
  typeUses : ∀ name ∈ w.usedTypes, name ∈ w.typeNames
  bodies : ∀ f ∈ w.funcs, LinesScoped (w.context f).Declares [] f.body.lines

end Wat

namespace Lower

namespace ModuleLowers

variable {memory : Wat.MemoryImport} {arena : Arena} {info : ModuleInfo} {wat : Wat.Module}
variable (h : ModuleLowers memory arena info wat)

include h

theorem imports_eq :
    wat.imports = info.imports.entries.filterMap fun e => importDecl? e.1 e.2 := by
  rw [h.parts]

theorem types_eq : wat.types = (signatures info).map funcType := by
  rw [h.parts]

/-- Functions are defined in the order of their table, and exported if their declarations are. -/
theorem funcs_named : wat.funcs.map (fun f => (f.name, f.exported)) =
    info.functions.entries.map fun e => (e.1, e.2.exported) := by
  refine (map_eq_of_forall₂ h.funcs ?_).symm
  rintro e f ⟨l⟩
  rw [l.func_eq]

theorem funcs_names : wat.funcs.map Wat.Func.name = info.functions.keys := by
  have hnames := congrArg (List.map Prod.fst) h.funcs_named
  rw [List.map_map, List.map_map] at hnames
  exact hnames

/-- Globals are declared in the order of their table; some are not declared at all. -/
theorem globals_named : (wat.globals.map fun g => (g.name, g.exported)).Sublist
    (info.globals.entries.map fun e => (e.1, e.2.exported)) := by
  obtain ⟨decls, hdecls, heq⟩ := globalDecls_ok h.globals
  rw [heq]
  clear heq
  generalize info.globals.entries = entries at hdecls
  induction hdecls with
  | nil => exact .slnil
  | @cons e d _ _ hd _ ih =>
    cases d with
    | none => exact ih.cons _
    | some g =>
      obtain ⟨hname, hexported⟩ := globalDecl?_names hd
      simp only [List.filterMap_cons, id, List.map_cons, hname, hexported]
      exact ih.cons_cons _

theorem globals_names : (wat.globals.map Wat.Global.name).Sublist info.globals.keys := by
  have hnames := h.globals_named.map Prod.fst
  rw [List.map_map, List.map_map] at hnames
  exact hnames

theorem imports_names : (wat.imports.map Wat.Import.name).Sublist info.imports.keys := by
  rw [h.imports_eq, List.map_filterMap]
  refine filterMap_sublist_map fun e _ name hname => ?_
  obtain ⟨i, hi, rfl⟩ := Option.map_eq_some_iff.mp hname
  exact (importDecl?_names hi).2.2

/-! ## Different names -/

theorem functionNames_nodup (hinfo : info.Distinct) : wat.functionNames.Nodup := by
  have himports : (wat.imports.filterMap Wat.Import.function?).Sublist info.imports.keys := by
    refine (filterMap_sublist_map fun i _ name hname => ?_).trans h.imports_names
    unfold Wat.Import.function? at hname
    split at hname <;> cases hname
    rfl
  unfold Wat.Module.functionNames
  rw [h.funcs_names, List.nodup_append]
  refine ⟨hinfo.imports.sublist himports, hinfo.functions, ?_⟩
  rintro name hname _ hname' rfl
  exact hinfo.imported_not_function name (himports.subset hname) hname'

theorem globalNames_nodup (hinfo : info.Distinct) : (wat.globalNames.map Prod.fst).Nodup := by
  have himports : ((wat.imports.filterMap Wat.Import.global?).map Prod.fst).Sublist
      info.imports.keys := by
    rw [List.map_filterMap]
    refine (filterMap_sublist_map fun i _ name hname => ?_).trans h.imports_names
    unfold Wat.Import.global? at hname
    split at hname <;> cases hname
    rfl
  unfold Wat.Module.globalNames
  rw [List.map_append, List.map_map, List.nodup_append]
  refine ⟨hinfo.imports.sublist himports, hinfo.globals.sublist h.globals_names, ?_⟩
  rintro name hname _ hname' rfl
  exact hinfo.global_not_imported name (h.globals_names.subset hname') (himports.subset hname)

theorem typeNames_nodup : wat.typeNames.Nodup := by
  unfold Wat.Module.typeNames
  rw [h.types_eq, List.map_map]
  have hencoded := signatures_nodup info
  have hmap : (signatures info).map ((fun t => Wat.typeName t.encoded) ∘ funcType) =
      ((signatures info).map Signature.encoded).map Wat.typeName := by
    rw [List.map_map]
    rfl
  rw [hmap]
  refine List.Nodup.map (fun a b hab => ?_) hencoded
  have hchars : (Wat.typeName a).toList = (Wat.typeName b).toList := by rw [hab]
  exact String.toList_inj.mp (by simpa [Wat.typeName, String.toList_append] using hchars)

theorem exportNames_nodup (hinfo : info.Distinct)
    (hexports : info.exports.entries = info.published) : wat.exportNames.Nodup := by
  have hkeys : info.exports.keys =
      (info.structs.entries.flatMap StructLayout.exportEntry).map Prod.fst ++
        ((info.functions.entries.filter fun e => e.2.exported).map Prod.fst ++
          (info.globals.entries.filter fun e => e.2.exported).map Prod.fst) := by
    have hfunctions := map_exportEntry (l := info.functions.entries) FunctionEntry.exported
      fun f => .function f.signature
    have hglobals := map_exportEntry (l := info.globals.entries) GlobalEntry.exported
      fun g => .global g.ty g.storage.isMemory
    rw [← hfunctions, ← hglobals, Table.keys, hexports, ModuleInfo.published, List.map_append,
      List.map_append, List.append_assoc]
    rfl
  have hfuncs := congrArg (fun l => (l.filter Prod.snd).map Prod.fst) h.funcs_named
  have hglobals := (h.globals_named.filter Prod.snd).map Prod.fst
  simp only [List.filter_map, List.map_map] at hfuncs hglobals
  refine hinfo.exports.sublist ?_
  rw [hkeys]
  refine (List.Sublist.append ?_ hglobals).trans (List.sublist_append_right _ _)
  exact hfuncs ▸ List.Sublist.refl _

/-! ## Declared names -/

/-- The type of every function is declared. -/
theorem usedTypes_declared {name : String} (hname : name ∈ wat.usedTypes) :
    name ∈ wat.typeNames := by
  obtain ⟨encoded, hencoded, rfl⟩ := List.mem_map.mp hname
  have hused : ∃ s ∈ usedSignatures info, s.encoded = encoded := by
    rcases List.mem_append.mp hencoded with himported | hdefined
    · rw [h.imports_eq, List.filterMap_filterMap] at himported
      obtain ⟨e, he, htype⟩ := List.mem_filterMap.mp himported
      obtain ⟨i, hi, htype⟩ := Option.bind_eq_some_iff.mp htype
      have hitem : i.item = .func encoded := by
        unfold Wat.Import.type? at htype
        split at htype
        · next heq =>
          cases htype
          exact heq
        · cases htype
      obtain ⟨s, hs, rfl⟩ := importDecl?_func hi hitem
      refine ⟨s, List.mem_append_left _ (List.mem_filterMap.mpr ⟨e.2, ?_, ?_⟩), rfl⟩
      · exact List.mem_map.mpr ⟨e, he, rfl⟩
      · rw [hs]
        rfl
    · obtain ⟨f, hf, rfl⟩ := List.mem_map.mp hdefined
      obtain ⟨e, he, l⟩ := h.exists_lowering hf
      refine ⟨e.2.signature, List.mem_append_right _ (List.mem_map.mpr ⟨e.2, ?_, rfl⟩), ?_⟩
      · exact List.mem_map.mpr ⟨e, he, rfl⟩
      · rw [l.some.func_eq]
  obtain ⟨s, hs, rfl⟩ := hused
  -- Types are declared once for each encoding, so this may be that of another signature.
  obtain ⟨t, ht, heq⟩ := mem_signatures hs
  refine List.mem_map.mpr ⟨funcType t, ?_, by rw [← heq]; rfl⟩
  rw [h.types_eq]
  exact List.mem_map_of_mem ht

/-- A function that can be called is declared. -/
theorem callee_declared {f : Wat.Func} {sc : Scope} (hsc : sc.info = info) {callee : String}
    {s : Signature} (hs : signatureOf sc callee = .ok s) :
    (wat.context f).Declares (.call callee) := by
  show callee ∈ wat.functionNames
  unfold signatureOf at hs
  rw [hsc] at hs
  cases hfunction : info.functions.get? callee with
  | some entry =>
    refine List.mem_append_right _ ?_
    rw [h.funcs_names]
    exact Table.mem_keys_of_get? hfunction
  -- What is not defined here can only be called if it is imported as a function.
  | none =>
    simp only [hfunction] at hs
    cases himport : info.imports.get? callee with
    | none => simp [himport] at hs
    | some i =>
      simp only [himport] at hs
      obtain ⟨d, hd, hs⟩ := bind_ok.mp hs
      cases d with
      | function s' =>
        have hdescriptor := ImportEntry.resolved_ok hd
        refine List.mem_append_left _ ?_
        rw [h.imports_eq, List.filterMap_filterMap]
        refine List.mem_filterMap.mpr ⟨(callee, i), Table.mem_of_get? himport, ?_⟩
        simp [importDecl?, hdescriptor, Wat.Import.function?]
      | global ty memoryBacked => cases hs
      | struct layout => cases hs

/-- An imported global is declared, and may be assigned to unless it is in memory. -/
theorem importedGlobal_declared {name : String} {i : ImportEntry}
    (hi : info.imports.get? name = some i) {ty : Ty} {inMemory : Bool}
    (hd : i.descriptor = some (.global ty inMemory)) : (name, !inMemory) ∈ wat.globalNames := by
  refine List.mem_append_left _ ?_
  rw [h.imports_eq, List.filterMap_filterMap]
  refine List.mem_filterMap.mpr ⟨(name, i), Table.mem_of_get? hi, ?_⟩
  cases inMemory <;> simp [importDecl?, hd, Wat.Import.global?]

/-- A global of the module that is not in memory is declared, and may be assigned to. -/
theorem register_declared {name : String} {g : GlobalEntry}
    (hg : info.globals.get? name = some g) (hstorage : g.storage = .register) :
    (name, true) ∈ wat.globalNames := by
  obtain ⟨d, hd, hmem⟩ := exists_globalDecl h.globals (Table.mem_of_get? hg)
  refine List.mem_append_right _ ?_
  unfold globalDecl? at hd
  simp only [hstorage] at hd
  split at hd
  · cases hd
    exact List.mem_map.mpr ⟨_, hmem _ rfl, rfl⟩
  · cases hd

end ModuleLowers

end Lower

/-! ## What names mean -/

/-- The variable is where the context has it. -/
def NameContext.Holds (c : NameContext) (v : Variable) : Prop :=
  match v.scope with
  | .localVar => v.name ∈ c.locals
  | .param => v.name ∈ c.locals
  | .global => (v.name, true) ∈ c.globals
  | .importedMemory => v.name ∈ c.globals.map Prod.fst
  | .memory _ => True

namespace NameContext.Holds

variable {c : NameContext} {v : Variable}

theorem get (h : c.Holds v) : c.Declares (.get v) := by
  obtain ⟨name, scope, ty⟩ := v
  cases scope with
  | localVar => exact h
  | param => exact h
  | global => exact List.mem_map.mpr ⟨_, h, rfl⟩
  | importedMemory => exact h
  | memory address => trivial

theorem set (h : c.Holds v) {i : Instr} (hi : Instr.set v = .ok i) : c.Declares i := by
  obtain ⟨name, scope, ty⟩ := v
  cases scope with
  | localVar | param | global =>
    cases hi
    exact h
  | importedMemory => cases hi
  | memory address => cases hi

theorem tee (h : c.Holds v) (hlocal : v.isLocal = true) : c.Declares (.localTee v.name) := by
  obtain ⟨name, scope, ty⟩ := v
  cases scope with
  | localVar | param => exact h
  | global | importedMemory | memory => cases hlocal

end NameContext.Holds

namespace Lower

section

variable {memory : Wat.MemoryImport} {arena : Arena} {info : ModuleInfo} {wat : Wat.Module}
variable (h : ModuleLowers memory arena info wat) {name : String} {entry : FunctionEntry}
variable {f : Wat.Func} (l : FunctionLowering info arena name entry f)

theorem FunctionLowering.variableNames_eq :
    f.variableNames = l.declared.params.keys ++ l.declared.locals.keys := by
  have hkeys : ∀ t : Table String Variable, (variableTypes t).map Prod.fst = t.keys := by
    intro t
    simp [variableTypes, Table.keys]
  refine (congrArg Wat.Func.variableNames l.func_eq).trans ?_
  rw [Wat.Func.variableNames, hkeys, hkeys]

/-- Locals are where they are looked up. -/
theorem FunctionLowering.local_holds {pending : List String} {loops : List LoopLabels}
    {x : String} {v : Variable}
    (hv : { l.declared with pending, loops }.visibleLocal? x = some v) :
    v.isLocal = true ∧ (wat.context f).Holds v := by
  have hwell := bodyFrame_wellFormed l.params_eq l.declared_eq pending loops
  have hget : l.declared.locals.get? x = some v := by
    unfold Frame.visibleLocal? at hv
    split at hv
    · cases hv
    · exact hv
  obtain ⟨hname, hscope⟩ := hwell.locals x v hget
  have hmem : v.name ∈ f.variableNames := by
    rw [l.variableNames_eq, hname]
    exact List.mem_append_right _ (Table.mem_keys_of_get? hget)
  refine ⟨by rw [Variable.isLocal, hscope], ?_⟩
  unfold NameContext.Holds
  rw [hscope]
  exact hmem

/-- The body of a function is lowered with no loop around it. -/
theorem FunctionLowering.fits :
    LowerState.Fits ⟨l.declared.hideLocals, l.labels⟩ l.declared [] := by
  refine ⟨⟨l.declared.locals.keys, [], ?_⟩, ?_⟩
  · unfold Frame.hideLocals
    rw [← l.declared_loops]
  · intro labels hlabels
    rw [show l.declared.hideLocals.loops = [] from l.declared_loops] at hlabels
    cases hlabels

/-- The lines of a function nest on their own. -/
theorem FunctionLowering.nested (l : FunctionLowering info arena name entry f) :
    Nested [] f.body.lines := by
  have hbody : Nested [] l.body.lines := l.lowers.nested l.fits
  rcases l.body_cases with heq | heq
  · rw [heq]
    exact hbody
  · rw [heq, Body.lines_append]
    exact hbody.append (Nested.nil.stays rfl)

include h

/-- Whatever a name means in the body of a function is declared. -/
theorem FunctionLowering.lookup_holds {pending : List String} {loops : List LoopLabels}
    {x : String} {v : Variable}
    (hv : Scope.lookup ⟨info, arena, some { l.declared with pending, loops }⟩ x = .ok v) :
    (wat.context f).Holds v := by
  have hvariable {key : String} {t : Table String Variable} {w : Variable}
      (hkeys : t.keys ⊆ l.declared.params.keys ++ l.declared.locals.keys)
      (hget : t.get? key = some w) : key ∈ f.variableNames := by
    rw [l.variableNames_eq]
    exact hkeys (Table.mem_keys_of_get? hget)
  cases (bodyFrame_wellFormed l.params_eq l.declared_eq pending loops).means hv with
  | localVar hget => exact hvariable (List.subset_append_right _ _) hget
  | param hget => exact hvariable (List.subset_append_left _ _) hget
  | register hg hs => exact h.register_declared hg hs
  | memory hg hs => trivial
  | @imported i ty inMemory hg hi hd =>
    have hmem := h.importedGlobal_declared hi hd
    cases inMemory with
    | false => exact hmem
    | true => exact List.mem_map.mpr ⟨_, hmem, rfl⟩

/-- The body of a function names only what is declared. -/
theorem FunctionLowering.admits (pending : List String) (loops : List LoopLabels) :
    Scope.Admits ⟨info, arena, some { l.declared with pending, loops }⟩
      (wat.context f).Declares where
  plain := by
    intro i hi
    cases i with
    | localGet | localSet | localTee | globalGet | globalSet | call | branch | branchIf => cases hi
    | _ => trivial
  get := fun x v hv => (l.lookup_holds h hv).get
  set := fun x v i hv hi => (l.lookup_holds h hv).set hi
  tee := fun x v hv hlocal => (l.lookup_holds h hv).tee hlocal
  flattened := by
    intro base member v hv
    obtain ⟨hlocal, hholds⟩ : v.isLocal = true ∧ (wat.context f).Holds v := l.local_holds hv
    exact ⟨hholds.get, hholds.tee hlocal⟩
  call := fun callee s hs => h.callee_declared rfl hs

/-- The printed body of a function is scoped. -/
theorem FunctionLowering.lines_scoped (l : FunctionLowering info arena name entry f) :
    LinesScoped (wat.context f).Declares [] f.body.lines := by
  have hnames : ∀ n ∈ [l.decl.body].flatMap (Source.boundNames info arena),
      AdmitsLocal (wat.context f).Declares n := by
    intro n hn
    rw [List.flatMap_singleton] at hn
    have hmem : n ∈ f.variableNames := by
      rw [l.variableNames_eq]
      exact List.mem_append_right _ ((l.mem_declared n).mpr hn)
    exact ⟨hmem, hmem, hmem⟩
  have hinstr : ∀ i, .instr i ∈ f.body.lines → i.Stays → (wat.context f).Declares i := by
    intro i hi hstays
    rcases Body.mem_lines hi hstays with hplain | ⟨code, hcode, hi⟩
    · exact (l.admits h [] []).plain i hplain
    · rw [l.codes_eq] at hcode
      exact (l.lowers.codes_all (l.admits h) hnames l.fits.frame hcode).of_mem_lines hi
  have hend : LinesScoped (wat.context f).Declares [] [] := rfl
  have hlines := l.nested.scoped hinstr (by simp) hend
  rwa [List.append_nil] at hlines

/-- Where the tables of a module are as extraction leaves them, its target module is well scoped. -/
theorem ModuleLowers.wellScoped (hinfo : info.Distinct)
    (hexports : info.exports.entries = info.published) : wat.WellScoped where
  functions := h.functionNames_nodup hinfo
  globals := h.globalNames_nodup hinfo
  types := h.typeNames_nodup
  exports := h.exportNames_nodup hinfo hexports
  vars := by
    intro f hf
    obtain ⟨e, -, ⟨l⟩⟩ := h.exists_lowering hf
    obtain ⟨hparams, hlocals, hdisjoint⟩ := l.declared_distinct
    rw [l.variableNames_eq]
    exact List.nodup_append'.mpr ⟨hparams, hlocals,
      fun _ hparam hlocal => hdisjoint _ hlocal hparam⟩
  typeUses := fun _ hname => h.usedTypes_declared hname
  bodies := by
    intro f hf
    obtain ⟨e, -, ⟨l⟩⟩ := h.exists_lowering hf
    exact l.lines_scoped h

end

/-- The target module of a module that was extracted and linked is well scoped. -/
theorem lowered_module_wellScoped {m : Module} {base : Nat} {info info' : ModuleInfo}
    {infos linked : List ModuleInfo} {catalog : Catalog} {memory : Wat.MemoryImport}
    {s s' : EmitState} {wat : Wat.Module} (hextract : m.extract base = .ok info)
    (hinfo : info ∈ infos) (hlink : link infos catalog = .ok linked) (hinfo' : info' ∈ linked)
    (hname : info'.name = info.name)
    (hlower : lowerModule memory m.arena info' s = .ok wat s') : wat.WellScoped := by
  have hlinks := Linker.links_of_name hlink hinfo hinfo' hname
  have hexports : info'.exports.entries = info'.published := by
    rw [hlinks.rest]
    exact (Module.extract_records hextract).exports
  exact (lowerModule_ok hlower).wellScoped (hlinks.distinct (Module.extract_distinct hextract))
    hexports

/-- Counts down from its argument in a local, with the total in a global and a call on the way. The
global and the function bear the same name. -/
def countdown : Module where
  name := "countdown"
  items := [0, 1, 9]
  arena := {
    exprs := #[
      .int 0, .ident "n", .ident "left", .ident "total", .call "abs" [2], .assign 3 4,
      .update .decrement 2]
    stmts := #[
      .importing ⟨"math", ["abs"]⟩,
      .letting ⟨"total", none, 0, true⟩,
      .letting ⟨"left", none, 1, false⟩,
      .expr 5,
      .expr 6,
      .breakLoop,
      .block [3, 4, 5],
      .whileLoop 2 6,
      .block [2, 7],
      .function ⟨"total", [⟨"n", .i32⟩], .void, 8, false⟩] }

theorem countdown_wellScoped :
    ∃ info catalog linked wat s', countdown.extract 1024 = .ok info ∧
      Catalog.builtin = .ok catalog ∧ link [info] catalog = .ok [linked] ∧
      lowerModule {} countdown.arena linked {} = .ok wat s' ∧ wat.WellScoped ∧
      wat.functionNames = ["abs", "total"] ∧ wat.globalNames = [("total", true)] := by
  have hnames : ((do
      let catalog ← Catalog.builtin
      let linked ← link [← countdown.extract 1024] catalog
      linked.mapM fun info =>
        match lowerModule {} countdown.arena info {} with
        | .ok wat _ => .ok (wat.functionNames, wat.globalNames)
        | .error e _ => .error e : Compiled (List (List String × List (String × Bool)))).toOption) =
      some [(["abs", "total"], [("total", true)])] := by
    decide +kernel
  simp only [← eq_ok_iff, bind_ok, mapM_ok] at hnames
  obtain ⟨catalog, hcatalog, info, hinfo, linked, hlinked, hlowered⟩ := hnames
  cases hlowered with
  | @cons linked _ _ _ hlowered hrest =>
    cases hrest
    split at hlowered
    · next wat s' hlower =>
      obtain ⟨hfunctions, hglobals⟩ := Prod.mk.inj (Except.ok.inj hlowered)
      have hname : linked.name = info.name := by
        cases (Linker.link_ok hlinked).2 with
        | cons hlinks _ => exact hlinks.name
      have hscoped : wat.WellScoped :=
        lowered_module_wellScoped hinfo (List.mem_singleton.mpr rfl) hlinked
          (List.mem_singleton.mpr rfl) hname hlower
      exact ⟨info, catalog, linked, wat, s', hinfo, hcatalog, hlinked, hlower, hscoped, hfunctions,
        hglobals⟩
    · cases hlowered

end Lower

end WasmBackend
