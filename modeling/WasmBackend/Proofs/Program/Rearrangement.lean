import Mathlib.Data.List.Forall2
import WasmBackend.Build.Program

/-!
# Where structs and imports stand does not matter

Extraction goes through the items of a module once for each kind of declaration, and once more to
place the literals. Each of these passes looks at some kinds of items only, so it depends on these
and their order, not on what stands between them. Struct and import declarations hold no literals:
they may stand anywhere among the other items. `Module.Rearranged` is this freedom.

What comes after extraction never looks at the items again, apart from the modules that are imported
from. So a program comes out the same, to the letter. Functions and lets have to keep their order,
for the sake of their literals.
-/

namespace WasmBackend

/-! ## Kinds of items -/

/-- What the passes of extraction tell apart, as far as their order may change. -/
inductive ItemKind where
  | structs
  | imports
  | others
  deriving DecidableEq

def Stmt.itemKind : Stmt → ItemKind
  | .struct _ => .structs
  | .importing _ => .imports
  | _ => .others

/-- The kind of an item. One that is not there counts with the others. -/
def Arena.itemKind (arena : Arena) (id : StmtId) : ItemKind :=
  (arena.stmt? id).elim .others Stmt.itemKind

/-- The same module with its items in another order, in which the structs follow each other as
before, and so do the imports, and so does everything else. -/
structure Module.Rearranged (m m' : Module) : Prop where
  name : m'.name = m.name
  arena : m'.arena = m.arena
  items : ∀ kind, m'.items.filter (fun id => m.arena.itemKind id = kind) =
    m.items.filter (fun id => m.arena.itemKind id = kind)

/-! ## Passes over one kind of items -/

/-- A pass that takes something from one kind of items only. -/
theorem Module.itemStmts_filterMap {β : Type} (m : Module) {kind : ItemKind}
    {f : StmtId × Stmt → Option β} (hf : ∀ id s, s.itemKind ≠ kind → f (id, s) = none) :
    m.itemStmts.filterMap f = (m.items.filter fun id => m.arena.itemKind id = kind).filterMap
      fun id => (m.arena.stmt? id).bind fun s => f (id, s) := by
  unfold itemStmts
  rw [List.filterMap_filterMap, List.filterMap_filter]
  refine List.filterMap_congr fun id _ => ?_
  cases hs : m.arena.stmt? id with
  | none => simp
  | some s =>
    by_cases hkind : s.itemKind = kind
    · simp [Arena.itemKind, hs, hkind]
    · simp [Arena.itemKind, hs, hkind, hf id s hkind]

namespace Module.Rearranged

variable {m m' : Module} (h : m.Rearranged m')

include h

theorem filterMap_eq {β : Type} (kind : ItemKind) {f : StmtId × Stmt → Option β}
    (hf : ∀ id s, s.itemKind ≠ kind → f (id, s) = none) :
    m'.itemStmts.filterMap f = m.itemStmts.filterMap f := by
  rw [m.itemStmts_filterMap hf, m'.itemStmts_filterMap hf, h.arena, h.items kind]

theorem structDecls_eq : m'.structDecls = m.structDecls := by
  refine h.filterMap_eq .structs fun id s hs => ?_
  cases s with
  | struct decl => exact absurd rfl hs
  | _ => rfl

theorem importDecls_eq : m'.importDecls = m.importDecls := by
  refine h.filterMap_eq .imports fun id s hs => ?_
  cases s with
  | importing decl => exact absurd rfl hs
  | _ => rfl

theorem functionDecls_eq : m'.functionDecls = m.functionDecls := by
  refine h.filterMap_eq .others fun id s hs => ?_
  cases s with
  | function decl => exact absurd rfl hs
  | _ => rfl

theorem letDecls_eq : m'.letDecls = m.letDecls := by
  refine h.filterMap_eq .others fun id s hs => ?_
  cases s with
  | letting decl => exact absurd rfl hs
  | _ => rfl

/-- The imports alone say which modules are imported from. -/
theorem importSources_eq : m'.importSources = m.importSources := by
  have hfold : ∀ m : Module, m.importSources = m.importDecls.foldl (fun sources decl =>
      if sources.contains decl.source then sources else sources ++ [decl.source]) [] := by
    intro m
    rw [Module.importSources, Module.importDecls, List.foldl_filterMap]
    congr 1
    funext sources item
    obtain ⟨id, s⟩ := item
    cases s <;> rfl
  rw [hfold, hfold, h.importDecls_eq]

/-! ## Extraction -/

theorem declarations_eq (base : Nat) : m'.declarations base = m.declarations base := by
  simp only [Module.declarations, h.name, h.arena, h.structDecls_eq, h.functionDecls_eq,
    h.importDecls_eq, h.letDecls_eq]

end Module.Rearranged

/-- Going through a list may skip what does nothing. -/
theorem forM_filter {M : Type → Type} [Monad M] [LawfulMonad M] {α : Type} {k : α → M Unit}
    {p : α → Bool} (hk : ∀ a, p a = false → k a = pure ()) (l : List α) :
    (l.filter p).forM k = l.forM k := by
  induction l with
  | nil => rfl
  | cons a rest ih =>
    show _ = k a >>= fun _ => rest.forM k
    cases hp : p a with
    | true =>
      rw [List.filter_cons_of_pos hp, ← ih]
      rfl
    | false => rw [List.filter_cons_of_neg (by simp [hp]), hk a hp, pure_bind, ih]

/-- There are no literals in structs and imports. -/
theorem Placement.visitStmt_other {arena : Arena} {structs : Table String StructLayout}
    {id : StmtId} (h : arena.itemKind id ≠ .others) :
    (Placement.visitor arena structs).visitStmt arena id = pure () := by
  rw [Visitor.visitStmt, descend_eq]
  cases hs : arena.stmt? id with
  | none => simp [Arena.itemKind, hs] at h
  | some s =>
    cases s with
    | struct decl | importing decl => rfl
    | _ => simp [Arena.itemKind, hs, Stmt.itemKind] at h

/-- So the walk that places literals depends on the other items alone. -/
theorem Placement.visitModule_others (structs : Table String StructLayout) (m : Module) :
    (Placement.visitor m.arena structs).visitModule m =
      (m.items.filter fun id => m.arena.itemKind id = .others).forM
        ((Placement.visitor m.arena structs).visitStmt m.arena) := by
  refine (forM_filter (fun id hid => ?_) m.items).symm
  exact visitStmt_other (by simpa using hid)

namespace Module.Rearranged

variable {m m' : Module} (h : m.Rearranged m')

include h

/-- Extraction gives the same, or fails in the same way. -/
theorem extract_eq (base : Nat) : m'.extract base = m.extract base := by
  have hwalk : ∀ structs, (Placement.visitor m'.arena structs).visitModule m' =
      (Placement.visitor m.arena structs).visitModule m := by
    intro structs
    rw [Placement.visitModule_others, Placement.visitModule_others, h.arena, h.items]
  simp only [Module.extract, h.declarations_eq, hwalk]

end Module.Rearranged

/-! ## Programs -/

/-- What lowering needs of a module besides what is known about it. -/
def Module.withoutItems (m : Module) : Module := { m with items := [] }

theorem emitAll_withoutItems (memory : Wat.MemoryImport) (linked : List ModuleInfo)
    (labels : LabelSupply) (modules : List Module) :
    emitAll memory linked labels (modules.map Module.withoutItems) =
      emitAll memory linked labels modules := by
  induction modules generalizing labels with
  | nil => rfl
  | cons m rest ih =>
    simp only [List.map_cons, emitAll, ih]
    rfl

theorem sortByName_withoutItems (modules : List Module) :
    sortByName (modules.map Module.withoutItems) =
      (sortByName modules).map Module.withoutItems := by
  unfold sortByName
  rw [List.map_mergeSort]
  intro a _ b _
  rfl

theorem extractAll_rearranged {modules modules' : List Module}
    (h : List.Forall₂ Module.Rearranged modules modules') (base : Nat) :
    extractAll base modules' = extractAll base modules := by
  induction h generalizing base with
  | nil => rfl
  | cons hfirst _ ih => simp only [extractAll, hfirst.extract_eq, ih]

/-- The texts of a working set are the same. -/
theorem compileModules_rearranged {modules modules' : List Module}
    (h : List.Forall₂ Module.Rearranged modules modules') (catalog : Catalog) (base : Nat)
    (memory : Wat.MemoryImport) :
    compileModules catalog base memory modules' = compileModules catalog base memory modules := by
  have hbare : modules'.map Module.withoutItems = modules.map Module.withoutItems := by
    induction h with
    | nil => rfl
    | @cons m m' _ _ hfirst _ ih =>
      rw [List.map_cons, List.map_cons, ih]
      simp only [Module.withoutItems, hfirst.name, hfirst.arena]
  have hemit : ∀ linked, emitAll memory linked {} (sortByName modules') =
      emitAll memory linked {} (sortByName modules) := by
    intro linked
    rw [← emitAll_withoutItems, ← sortByName_withoutItems, hbare, sortByName_withoutItems,
      emitAll_withoutItems]
  simp only [compileModules, extractAll_rearranged h, hemit]

section Loading

variable {M : Type → Type} [Monad M] [LawfulMonad M]
variable {load : String → M (Except LoadError Module)} {arrange : Module → Module}

/-- Modules are loaded in the order of the names, whatever their items. -/
theorem loadAll_rearranged (names : List String) :
    loadAll (fun name => Except.map arrange <$> load name) names =
      Except.map (List.map arrange) <$> loadAll load names := by
  induction names with
  | nil => simp [loadAll, Except.map]
  | cons name rest ih =>
    simp only [loadAll, ih, bind_map_left, map_bind]
    refine bind_congr fun first => ?_
    cases first with
    | error e => simp [Except.map]
    | ok first =>
      simp only [Except.map, map_bind]
      refine bind_congr fun others => ?_
      cases others <;> simp [Except.map]

variable (harrange : ∀ m : Module, m.Rearranged (arrange m))

include harrange

theorem loadWorkingSet_rearranged (catalog : Catalog) (entry : String) :
    loadWorkingSet (fun name => Except.map arrange <$> load name) catalog entry =
      Except.map (List.map arrange) <$> loadWorkingSet load catalog entry := by
  simp only [loadWorkingSet, bind_map_left, map_bind]
  refine bind_congr fun first => ?_
  cases first with
  | error e => simp [Except.map]
  | ok first =>
    -- The same modules are imported from.
    have hsiblings : siblings catalog entry (arrange first) = siblings catalog entry first := by
      rw [siblings, siblings, (harrange first).importSources_eq]
    simp only [Except.map, hsiblings, loadAll_rearranged, bind_map_left, map_bind]
    refine bind_congr fun others => ?_
    cases others <;> simp [Except.map]

theorem compile_rearranged (catalog : Catalog) (base : Nat) (memory : Wat.MemoryImport)
    (entry : String) :
    compile (fun name => Except.map arrange <$> load name) catalog base memory entry =
      compile load catalog base memory entry := by
  simp only [compile, loadWorkingSet_rearranged harrange, bind_map_left]
  refine bind_congr fun modules => ?_
  cases modules with
  | error e => rfl
  | ok modules =>
    have hall : List.Forall₂ Module.Rearranged modules (modules.map arrange) :=
      List.forall₂_map_right_iff.mpr (List.forall₂_same.mpr fun m _ => harrange m)
    simp only [Except.map, compileModules_rearranged hall]

end Loading

theorem Module.Rearranged.refl (m : Module) : m.Rearranged m := ⟨rfl, rfl, fun _ => rfl⟩

/-- Loads this module in the place of the other. -/
def Module.replacedBy (m m' : Module) (loaded : Module) : Module :=
  if loaded = m then m' else loaded

/-- Struct and import declarations may stand anywhere: extraction gives the same tables, addresses
and literals, or the same error, from any base; the texts of every working set are the same; and so
is every program that is loaded with the rearranged module, whatever loads it. -/
theorem declarations_stand_anywhere {m m' : Module} (h : m.Rearranged m') :
    (∀ base, m'.extract base = m.extract base) ∧
    (∀ catalog base memory before after,
      compileModules catalog base memory (before ++ m' :: after) =
        compileModules catalog base memory (before ++ m :: after)) ∧
    ∀ (M : Type → Type) [Monad M] [LawfulMonad M] (load : String → M (Except LoadError Module))
      (catalog : Catalog) (base : Nat) (memory : Wat.MemoryImport) (entry : String),
      compile (fun name => Except.map (m.replacedBy m') <$> load name) catalog base memory entry =
        compile load catalog base memory entry := by
  refine ⟨h.extract_eq, ?_, ?_⟩
  · intro catalog base memory before after
    refine compileModules_rearranged (List.rel_append ?_ (.cons h ?_)) catalog base memory
    · exact List.forall₂_same.mpr fun m _ => .refl m
    · exact List.forall₂_same.mpr fun m _ => .refl m
  · intro M _ _ load catalog base memory entry
    refine compile_rearranged (fun loaded => ?_) catalog base memory entry
    unfold Module.replacedBy
    split
    · next heq => exact heq ▸ h
    · exact .refl loaded

/-- Two structs, two imports, a global struct and a function with a string, mixed. -/
def kiosk : Module where
  name := "kiosk"
  items := [0, 1, 3, 2, 4, 7]
  arena := {
    exprs := #[.int 3, .struct "Item" [⟨"price", 0⟩], .str "open", .call "log" [2]]
    stmts := #[
      .struct ⟨"Item", [⟨"price", .i32⟩], true⟩,
      .importing ⟨"io", ["log"]⟩,
      .letting ⟨"offer", none, 1, true⟩,
      .struct ⟨"Price", [⟨"cents", .i32⟩], false⟩,
      .importing ⟨"math", ["abs"]⟩,
      .expr 3,
      .block [5],
      .function ⟨"greet", [], .void, 6, true⟩] }

/-- With the structs after the global that is one, and the imports at the end. -/
def kioskRearranged : Module := { kiosk with items := [2, 0, 7, 3, 1, 4] }

/-- Its tables and addresses are those of the first order, and there are some. -/
theorem kiosk_stands_anywhere :
    kiosk.Rearranged kioskRearranged ∧ kioskRearranged.items ≠ kiosk.items ∧
      kioskRearranged.extract 16 = kiosk.extract 16 ∧
      (kiosk.extract 16).toOption.map (fun info => info.literals.entries) =
        some [(1, 16), (2, 24)] := by
  have h : kiosk.Rearranged kioskRearranged := by
    refine ⟨rfl, rfl, fun kind => ?_⟩
    cases kind <;> decide
  refine ⟨h, by decide, (declarations_stand_anywhere h).1 16, ?_⟩
  decide +kernel

end WasmBackend
