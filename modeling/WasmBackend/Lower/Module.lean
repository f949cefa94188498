import WasmBackend.Lower.Stmt
import WasmBackend.Wat.Module

/-!
# Lowering modules

From a linked module to a module of the target. All imports must be resolved. Each function is
lowered in a frame of its own, which is pushed on the stack of frames and taken off again however
the lowering ends; labels are drawn from one supply, so no two loops share one.
-/

namespace WasmBackend

/-- The machine type of values of a declared type; a word for those that have none. -/
def Ty.valType (t : Ty) : ValType := t.lane.valType?.getD .i32

structure EmitState where
  stack : FrameStack := {}
  labels : LabelSupply := {}
  deriving DecidableEq

abbrev EmitM := EStateM CompileError EmitState

def EmitM.ofCompiled {α : Type} (x : Compiled α) : EmitM α := fun s =>
  match x with
  | .ok a => .ok a s
  | .error e => .error e s

namespace Lower

/-! ## Functions -/

/-- A fresh frame for a function. Parameter names must differ. -/
def functionFrame (name : String) (decl : FunctionDecl) : Compiled Frame :=
  decl.params.foldlM (fun f p =>
    match f.params.insert? p.name ⟨p.name, .param, p.ty⟩ with
    | some params => .ok { f with params }
    | none => .error (.duplicateDefinition .localVar p.name))
    { name, result := decl.result }

/-- Declares the locals of a body, then lowers it. -/
def lowerInFrame (info : ModuleInfo) (arena : Arena) (body : StmtId) : LowerM Body := fun s =>
  match declareLocals info arena body s.frame with
  | .error e frame => .error { error := e } { s with frame }
  | .ok _ frame => lowerBody info arena body { s with frame }

/-- Runs a lowering on a frame that is pushed for it. The frame comes back with the result; after a
failure it is dropped. -/
def withFrame {α : Type} (frame : Frame) (x : LowerM α) : EmitM (α × Frame) := fun s =>
  let (position, stack) := s.stack.push frame
  match x ⟨frame, s.labels⟩ with
  | .error e after => .error e.error ⟨stack.drop position, after.labels⟩
  | .ok a after =>
    match (stack.modify position fun _ => after.frame).finish position with
    | (some frame, stack) => .ok (a, frame) ⟨stack, after.labels⟩
    -- The pushed frame is always there.
    | (none, stack) => .ok (a, after.frame) ⟨stack, after.labels⟩

def variableTypes (t : Table String Variable) : List (String × ValType) :=
  t.entries.map fun e => (e.1, e.2.ty.valType)

def lowerFunction (info : ModuleInfo) (arena : Arena) (name : String) (entry : FunctionEntry) :
    EmitM Wat.Func := do
  match arena.stmt? entry.decl with
  | some (.function decl) =>
    let frame ← EmitM.ofCompiled (functionFrame name decl)
    let (body, frame) ← withFrame frame (lowerInFrame info arena decl.body)
    return {
      name
      exported := entry.exported
      encoded := entry.signature.encoded
      params := variableTypes frame.params
      result := decl.result.lane.valType?
      locals := variableTypes frame.locals
      body }
  | _ => throw (.notImplemented ("function `" ++ name ++ "` without a declaration"))

/-! ## The parts of a module -/

def funcType (s : Signature) : Wat.FuncType :=
  ⟨s.encoded, s.paramLanes.filterMap Lane.valType?, s.resultLane.valType?⟩

/-- The signatures in use, imported ones first, one for each encoding. -/
def signatures (info : ModuleInfo) : List Signature :=
  let imported := info.imports.values.filterMap fun i => i.descriptor.bind Descriptor.function?
  let defined := info.functions.values.map FunctionEntry.signature
  (imported ++ defined).foldl (fun seen s =>
    if seen.any (fun t => t.encoded == s.encoded) then seen else seen ++ [s]) []

/-- What an import declares. Structs exist at compile time only. -/
def importDecl? (name : String) (i : ImportEntry) : Option Wat.Import :=
  match i.descriptor with
  | some (.function s) => some ⟨i.source, i.name, name, .func s.encoded⟩
  | some (.global _ true) => some ⟨i.source, i.name, name, .global .i32 false⟩
  | some (.global ty false) => some ⟨i.source, i.name, name, .global ty.valType true⟩
  | _ => none

/-- What a global declares. One in memory is declared only for the sake of its export. -/
def globalDecl? (arena : Arena) (name : String) (g : GlobalEntry) : Compiled (Option Wat.Global) :=
  match g.storage with
  | .register =>
    match Constant.ofExpr? arena g.init with
    | some c => .ok (some ⟨name, g.exported, g.ty.valType, true, .constant c g.ty.lane⟩)
    | none => .error (.notImplemented ("non-constant initializer for global `" ++ name ++ "`"))
  | .memory address =>
    if g.exported then .ok (some ⟨name, true, .i32, false, .intConst address⟩) else .ok none

def globalDecls (info : ModuleInfo) (arena : Arena) : Compiled (List Wat.Global) := do
  let decls ← info.globals.entries.mapM fun (name, g) => globalDecl? arena name g
  return decls.filterMap id

def checkResolved (info : ModuleInfo) : Compiled Unit :=
  info.imports.values.forM fun i => i.resolved.map fun _ => ()

/-! ## The module -/

def lowerModule (memory : Wat.MemoryImport) (arena : Arena) (info : ModuleInfo) :
    EmitM Wat.Module := do
  EmitM.ofCompiled (checkResolved info)
  let globals ← EmitM.ofCompiled (globalDecls info arena)
  let funcs ← info.functions.entries.mapM fun (name, entry) => lowerFunction info arena name entry
  return {
    memory
    types := (signatures info).map funcType
    imports := info.imports.entries.filterMap fun (name, i) => importDecl? name i
    globals
    data := info.data.segments.filter fun b => !b.bytes.isEmpty
    funcs }

end Lower

end WasmBackend
