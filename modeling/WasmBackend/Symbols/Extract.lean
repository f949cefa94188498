import WasmBackend.Symbols.Literals

/-!
# Extraction

From a syntax tree to what is known about the module. Declarations are collected kind by kind, in
item order within each kind: structs, functions, imports, globals. Then the literals of the whole
tree are placed, and globals that live in memory get the address of their initialiser.

The first fault ends the extraction. Its order is fixed by the order of the kinds, and within a kind
by the order of the items.
-/

namespace WasmBackend

namespace ModuleInfo

def addStruct (m : ModuleInfo) (decl : StructDecl) : Compiled ModuleInfo := do
  let layout ← StructLayout.ofFields decl.name decl.fields decl.exported
  let m ← if decl.exported then m.addExport decl.name (.struct layout) else .ok m
  match m.structs.insert? decl.name layout with
  | some structs => return { m with structs }
  | none => .error (.duplicateDefinition .struct decl.name)

def addFunction (m : ModuleInfo) (id : StmtId) (decl : FunctionDecl) : Compiled ModuleInfo := do
  let signature : Signature := ⟨decl.params.map Binding.ty, decl.result⟩
  match m.functions.insert? decl.name ⟨signature, decl.exported, id⟩ with
  | none => .error (.duplicateDefinition .function decl.name)
  | some functions =>
    let m ← if decl.exported then m.addExport decl.name (.function signature) else .ok m
    return { m with functions }

/-- Adds one imported name. It must not clash with a function of the module. -/
def addImport (source : String) (m : ModuleInfo) (name : String) : Compiled ModuleInfo :=
  if m.functions.contains name then .error (.duplicateDefinition .imported name)
  else
    match m.imports.insert? name { source, name } with
    | some imports => .ok { m with imports }
    | none => .error (.duplicateDefinition .imported name)

end ModuleInfo

/-! ## Globals -/

/-- What a global's initialiser says about it: the type it has unless one is declared, and where it
lives. The address of one in memory is filled in later. -/
def globalShape (arena : Arena) (decl : LetDecl) : Compiled (Ty × Storage) :=
  let nonConstant (e : Expr) : CompileError :=
    .notImplemented
      ("non-constant initializer (" ++ e.kindName ++ ") for global `" ++ decl.name ++ "`")
  let implied : Compiled (Ty × Storage) :=
    match arena.expr? decl.init with
    | none => .error (.danglingExpr decl.init decl.init)
    | some (.int _) => .ok (.i32, .register)
    | some (.char _) => .ok (.i32, .register)
    | some (.float _) => .ok (.f32, .register)
    | some (.bool _) => .ok (.bool, .register)
    | some (.unary .neg operand) =>
      match arena.expr? operand with
      | none => .error (.danglingExpr decl.init operand)
      | some (.int _) => .ok (.i32, .register)
      | some (.float _) => .ok (.f32, .register)
      | some other => .error (nonConstant other)
    | some (.str _) => .ok (.string, .memory 0)
    | some (.array elements stated) =>
      .ok (.array (arrayElementType arena stated (decl.ty.bind Ty.element?) elements), .memory 0)
    | some (.struct name _) => .ok (.named name, .memory 0)
    | some other => .error (nonConstant other)
  implied.map fun (ty, storage) => (decl.ty.getD ty, storage)

namespace ModuleInfo

def addGlobal (arena : Arena) (m : ModuleInfo) (decl : LetDecl) : Compiled ModuleInfo :=
  if m.imports.contains decl.name then .error (.duplicateDefinition .globalVar decl.name)
  else do
    let (ty, storage) ← globalShape arena decl
    let m ← if decl.exported then m.addExport decl.name (.global ty storage.isMemory) else .ok m
    match m.globals.insert? decl.name ⟨ty, storage, decl.exported, decl.init⟩ with
    | some globals => return { m with globals }
    | none => .error (.duplicateDefinition .globalVar decl.name)

/-- Gives globals in memory the address of their initialiser. -/
def placeGlobals (m : ModuleInfo) : ModuleInfo :=
  { m with globals := m.globals.map fun g =>
      match g.storage, m.literals.get? g.init with
      | .memory _, some address => { g with storage := .memory address }
      | _, _ => g }

end ModuleInfo

/-! ## The whole module -/

namespace Module

def structDecls (m : Module) : List StructDecl :=
  m.itemStmts.filterMap fun
    | (_, .struct decl) => some decl
    | _ => none

def functionDecls (m : Module) : List (StmtId × FunctionDecl) :=
  m.itemStmts.filterMap fun
    | (id, .function decl) => some (id, decl)
    | _ => none

def importDecls (m : Module) : List ImportDecl :=
  m.itemStmts.filterMap fun
    | (_, .importing decl) => some decl
    | _ => none

def letDecls (m : Module) : List LetDecl :=
  m.itemStmts.filterMap fun
    | (_, .letting decl) => some decl
    | _ => none

/-- Collects the declarations of a module, literals not yet placed. -/
def declarations (m : Module) (base : Nat) : Compiled ModuleInfo := do
  let info := ModuleInfo.empty m.name base
  let info ← m.structDecls.foldlM ModuleInfo.addStruct info
  let info ← m.functionDecls.foldlM (fun info (id, decl) => info.addFunction id decl) info
  let info ← m.importDecls.foldlM
    (fun info decl => decl.names.foldlM (ModuleInfo.addImport decl.source) info) info
  m.letDecls.foldlM (ModuleInfo.addGlobal m.arena) info

/-- What is known about a module whose data starts at `base`. -/
def extract (m : Module) (base : Nat) : Compiled ModuleInfo := do
  let info ← m.declarations base
  let start : Placement := { data := info.data }
  let ((), placed) ← (Placement.visitor m.arena info.structs).visitModule m start
  return { info with data := placed.data, literals := placed.literals }.placeGlobals

end Module

end WasmBackend
