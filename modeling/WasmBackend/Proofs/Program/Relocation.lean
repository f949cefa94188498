import WasmBackend.Proofs.Data.Recorded
import WasmBackend.Proofs.Data.Relocation
import WasmBackend.Proofs.Program.Agreement

/-!
# Extraction at another base

The base of a module's data is handed to extraction, kept aside while the declarations are
collected, and first used when the literals are placed. So the symbol tables do not depend on it,
and the addresses in them move with it (`ModuleInfo.Relocated`).

A global in memory is entered with a dummy address and gets that of its initialiser in the end. The
dummy never stays, since the initialiser has a place by then (`Module.globals_placed`). Code is left
out: it is made from the tables later.
-/

namespace WasmBackend

open Compiled

/-! ## Declarations -/

/-- A change to the state that two steps commute with commutes with one after the other. -/
theorem Compiled.bind_commutes {σ : Type} {change : σ → σ} {x y : Compiled σ}
    {next : σ → Compiled σ} (hx : y = x.map change)
    (hnext : ∀ s, next (change s) = (next s).map change) :
    (y >>= next) = (x >>= next).map change := by
  subst hx
  cases x with
  | error e => rfl
  | ok s => exact hnext s

theorem Compiled.foldlM_commutes {σ δ : Type} {step : σ → δ → Compiled σ} (change : σ → σ)
    (hstep : ∀ s d, step (change s) d = (step s d).map change) (l : List δ) (s : σ) :
    l.foldlM step (change s) = (l.foldlM step s).map change := by
  induction l generalizing s with
  | nil => rfl
  | cons d rest ih =>
    rw [List.foldlM_cons, List.foldlM_cons]
    exact bind_commutes (hstep s d) ih

namespace ModuleInfo

/-- The same module with other data. -/
def withData (data : DataImage) (m : ModuleInfo) : ModuleInfo := { m with data }

variable (data : DataImage) (m : ModuleInfo)

theorem addExport_withData (name : String) (d : Descriptor) :
    (m.withData data).addExport name d = (m.addExport name d).map (withData data) := by
  unfold addExport withData
  dsimp only
  cases m.exports.insert? name d <;> rfl

/-- Publishing a declaration, or not, and going on. -/
theorem publish_withData (exported : Bool) (name : String) (d : Descriptor)
    {next : ModuleInfo → Compiled ModuleInfo}
    (hnext : ∀ m, next (m.withData data) = (next m).map (withData data)) :
    (if exported then (m.withData data).addExport name d >>= next
      else Except.ok (m.withData data) >>= next) =
      (if exported then m.addExport name d >>= next else Except.ok m >>= next).map
        (withData data) := by
  cases exported with
  | false => exact hnext m
  | true => exact bind_commutes (m.addExport_withData data name d) hnext

theorem addStruct_withData (decl : StructDecl) :
    (m.withData data).addStruct decl = (m.addStruct decl).map (withData data) := by
  unfold addStruct
  cases StructLayout.ofFields decl.name decl.fields decl.exported with
  | error e => rfl
  | ok layout =>
    refine publish_withData data m decl.exported decl.name _ fun m => ?_
    simp only [withData]
    cases m.structs.insert? decl.name layout <;> rfl

theorem addFunction_withData (id : StmtId) (decl : FunctionDecl) :
    (m.withData data).addFunction id decl = (m.addFunction id decl).map (withData data) := by
  unfold addFunction
  dsimp only [withData]
  cases m.functions.insert? decl.name _ with
  | none => rfl
  | some functions =>
    exact publish_withData data m decl.exported decl.name _ fun _ => rfl

theorem addImport_withData (source name : String) :
    (m.withData data).addImport source name = (m.addImport source name).map (withData data) := by
  unfold addImport
  show (if m.functions.contains name then _ else _) = _
  by_cases hfunction : m.functions.contains name = true
  · rw [if_pos hfunction, if_pos hfunction]
    rfl
  · rw [if_neg hfunction, if_neg hfunction]
    simp only [withData]
    cases m.imports.insert? name { source, name } <;> rfl

theorem addGlobal_withData (arena : Arena) (decl : LetDecl) :
    (m.withData data).addGlobal arena decl = (m.addGlobal arena decl).map (withData data) := by
  unfold addGlobal
  show (if m.imports.contains decl.name then _ else _) = _
  by_cases himport : m.imports.contains decl.name = true
  · rw [if_pos himport, if_pos himport]
    rfl
  · rw [if_neg himport, if_neg himport]
    cases globalShape arena decl with
    | error e => rfl
    | ok shape =>
      refine publish_withData data m decl.exported decl.name _ fun m => ?_
      simp only [withData]
      cases m.globals.insert? decl.name _ <;> rfl

end ModuleInfo

/-- Declarations do not depend on where the data starts. -/
theorem Module.declarations_rebased (m : Module) (base base' : Nat) :
    m.declarations base' = (m.declarations base).map (ModuleInfo.withData (.startingAt base')) := by
  have hstructs := foldlM_commutes (ModuleInfo.withData (.startingAt base'))
    (fun info decl => info.addStruct_withData _ decl) m.structDecls (.empty m.name base)
  unfold declarations
  refine bind_commutes hstructs fun structs => ?_
  refine bind_commutes (foldlM_commutes _ ?_ _ structs) fun functions => ?_
  · exact fun info d => info.addFunction_withData _ d.1 d.2
  refine bind_commutes (foldlM_commutes _ ?_ _ functions) fun imports => ?_
  · exact fun info decl => foldlM_commutes _
      (fun info name => info.addImport_withData _ decl.source name) decl.names info
  exact foldlM_commutes _ (fun info decl => info.addGlobal_withData _ m.arena decl) _ imports

/-! ## Extraction -/

def Storage.shift (distance : Nat) : Storage → Storage
  | .register => .register
  | .memory address => .memory (address + distance)

def GlobalEntry.shift (distance : Nat) (g : GlobalEntry) : GlobalEntry :=
  { g with storage := g.storage.shift distance }

/-- The second module is the first with its data at some distance: the tables are the same but for
the addresses in them. The data ends where its cursor stands, so the end moves as well. -/
structure ModuleInfo.Relocated (m : Module) (distance : Nat) (info info' : ModuleInfo) : Prop where
  name : info'.name = info.name
  structs : info'.structs = info.structs
  functions : info'.functions = info.functions
  imports : info'.imports = info.imports
  exports : info'.exports = info.exports
  globals : info'.globals = info.globals.map (GlobalEntry.shift distance)
  literals : info'.literals = info.literals.map (· + distance)
  dataEnd : info'.dataEnd = info.dataEnd + distance
  data : info.data.Relocated m.arena info.structs distance info'.data
  located : ∀ id address, info.literals.get? id = some address →
    DataImage.Corresponds m.arena info.structs distance info.data info'.data
      (.of m.arena id) address

/-- A global whose initialiser is placed moves with it. -/
theorem ModuleInfo.placed_shift {info info' : ModuleInfo} {distance : Nat} {g : GlobalEntry}
    (hliterals : info'.literals = info.literals.map (· + distance))
    (hg : g.storage.isMemory = true → ∃ address, info.literals.get? g.init = some address) :
    info'.placed g = (info.placed g).shift distance := by
  unfold placed
  rw [hliterals, Table.get?_map]
  cases hstorage : g.storage with
  | register =>
    cases g
    cases hstorage
    rfl
  | memory dummy =>
    obtain ⟨address, haddress⟩ := hg (by rw [hstorage]; rfl)
    simp [haddress, GlobalEntry.shift, Storage.shift]

/-- Empty images correspond. -/
theorem DataImage.Relocated.startingAt (arena : Arena) (structs : Table String StructLayout)
    (base distance : Nat) :
    (DataImage.startingAt base).Relocated arena structs distance
      (.startingAt (base + distance)) where
  base := rfl
  cursor := rfl
  interned := rfl
  headers := rfl
  strings := rfl
  blocks := .nil
  headed := nofun

namespace Module

variable {m : Module}

theorem extract_relocated {base distance : Nat} (hdistance : 4 ∣ distance) {info' : ModuleInfo}
    (h : m.extract (base + distance) = .ok info') :
    ∃ info, m.extract base = .ok info ∧ info.Relocated m distance info' := by
  obtain ⟨declared', placed', hdeclared', hplaced', rfl⟩ := extract_ok h
  obtain ⟨declared, hdeclared, rfl⟩ :=
    map_ok.mp ((m.declarations_rebased base (base + distance)).symm.trans hdeclared')
  have hbase : declared.data = .startingAt base := declarations_data hdeclared
  have hstart : Placement.Relocated m.arena declared.structs distance { data := declared.data }
      { data := .startingAt (base + distance) } :=
    { data := hbase ▸ .startingAt m.arena declared.structs base distance
      literals := rfl
      expected := rfl
      located := nofun }
  obtain ⟨placed, hplaced, hrelocated⟩ :=
    Placement.visitModule_relocates hdistance m _ _ placed' hstart hplaced'
  refine ⟨{ declared with data := placed.data, literals := placed.literals }.placeGlobals, ?_, ?_⟩
  · simp only [extract, hdeclared, hplaced, ok_bind, pure_ok]
  · exact
      { name := rfl
        structs := rfl
        functions := rfl
        imports := rfl
        exports := rfl
        globals := by
          simp only [ModuleInfo.placeGlobals_eq, ModuleInfo.withData, Table.map, List.map_map]
          refine congrArg Table.mk (List.map_congr_left fun entry hentry => ?_)
          refine Prod.ext rfl (ModuleInfo.placed_shift hrelocated.literals ?_)
          exact globals_placed hdeclared hplaced hentry
        literals := hrelocated.literals
        dataEnd := hrelocated.data.cursor
        data := hrelocated.data
        located := hrelocated.located }

/-- Every literal has a block that was made for it. This is moving by no distance. -/
theorem extract_located {base : Nat} {info : ModuleInfo} (h : m.extract base = .ok info)
    {id : ExprId} {address : Nat} (haddress : info.literals.get? id = some address) :
    ∃ b ∈ info.data.blocks, b.address = address ∧ ∃ parts,
      Composed m.arena info.structs info.data (.of m.arena id) parts ∧
        b.bytes = parts.flatMap DataPart.bytes := by
  have hstay : m.extract (base + 0) = .ok info := h
  obtain ⟨info', hinfo', hmoved⟩ := extract_relocated (Nat.dvd_zero 4) hstay
  cases h.symm.trans hinfo'
  obtain ⟨b, hb, _, -, hat, hbytes⟩ := hmoved.located id address haddress
  obtain ⟨parts, hcomposed, heq, -⟩ := hbytes.bytes
  exact ⟨b, hb, hat, parts, hcomposed, heq⟩

/-- Extraction can be moved: if a module can be extracted at a base, then it can at every lower one
with the same remainder modulo four, and everything found there lies as much lower. -/
theorem extraction_moves (m : Module) {base base' : Nat} (hle : base ≤ base')
    (hmod : base % 4 = base' % 4) {info' : ModuleInfo} (h : m.extract base' = .ok info') :
    ∃ info, m.extract base = .ok info ∧ info.Relocated m (base' - base) info' := by
  have hdistance : 4 ∣ base' - base := by omega
  refine extract_relocated hdistance ?_
  rwa [Nat.add_sub_cancel' hle]

end Module

/-- A list of strings and a struct: `let labels: string[] = ["tea"]`, `let offer = Item { price: 5
}`. -/
def pantry : Module where
  name := "pantry"
  items := [0, 1, 2]
  arena := {
    exprs := #[.str "tea", .array [0] none, .int 5, .struct "Item" [⟨"price", 2⟩]]
    stmts := #[
      .struct ⟨"Item", [⟨"price", .i32⟩], false⟩,
      .letting ⟨"labels", some (.array .string), 1, false⟩,
      .letting ⟨"offer", none, 3, true⟩] }

/-- The data of the module at a base: the string, its header, the list and the struct. -/
def pantry.dataAt (base : Nat) : DataImage where
  base := base
  cursor := base + 20
  interned := ⟨[("tea", base)]⟩
  headers := ⟨[("tea", base + 4)]⟩
  strings := [⟨base, [116, 101, 97]⟩]
  blocks := [
    ⟨base + 4, [3, 0, 0, 0] ++ littleEndian 4 base⟩,
    ⟨base + 12, littleEndian 4 (base + 4)⟩,
    ⟨base + 16, [5, 0, 0, 0]⟩]

theorem pantry_moves :
    ∃ info info', pantry.extract 16 = .ok info ∧ pantry.extract 48 = .ok info' ∧
      info.data = pantry.dataAt 16 ∧ info'.data = pantry.dataAt 48 ∧
      info.Relocated pantry 32 info' := by
  have hlow : (pantry.extract 16).toOption.map ModuleInfo.data = some (pantry.dataAt 16) := by
    decide +kernel
  have hhigh : (pantry.extract 48).toOption.map ModuleInfo.data = some (pantry.dataAt 48) := by
    decide +kernel
  cases hextract' : pantry.extract 48 with
  | error e => simp [hextract', Except.toOption] at hhigh
  | ok info' =>
    obtain ⟨info, hextract, hmoved⟩ :=
      pantry.extraction_moves (show 16 ≤ 48 by decide) (by decide) hextract'
    simp only [hextract, hextract', Except.toOption, Option.map_some,
      Option.some.injEq] at hlow hhigh
    exact ⟨info, info', hextract, rfl, hlow, hhigh, hmoved⟩

end WasmBackend
