import WasmBackend.Lower.Lanes

/-!
# Declaring locals

Before a function body is lowered, one walk over it declares a local for every `let`, in walk order.
A `let` that is initialised with a struct literal also gets a local for each member; these come
first. The type of an unannotated `let` is read off its initialiser, in the scope of the locals
declared so far.

Two lets may share a local when their types agree. No local may have the name of a parameter.
-/

namespace WasmBackend

/-- A step that may fail and keeps the frame it has built so far either way. -/
abbrev FrameM := EStateM CompileError Frame

/-- A step that cannot change the frame. -/
def FrameM.ofCompiled {α : Type} (x : Compiled α) : FrameM α := fun f =>
  match x with
  | .ok a => .ok a f
  | .error e => .error e f

namespace Lower

/-- Declares one local. -/
def declare (name : String) (ty : Ty) : FrameM Unit := fun f =>
  if f.params.contains name then .error (.duplicateDefinition .localVar name) f
  else
    match f.locals.get? name with
    | some v => if v.ty = ty then .ok () f else .error (.duplicateDefinition .localVar name) f
    | none => .ok () { f with locals := f.locals.set name ⟨name, .localVar, ty⟩ }

/-- The type that a lane gives an unannotated local. -/
def typeOfLane (name : String) : Lane → Compiled Ty
  | .float => .ok .f32
  | .bool => .ok .bool
  | .int => .ok .i32
  | .void => .error (.notImplemented ("`let " ++ name ++ "` initialised with a void value"))

/-- The type of an unannotated `let`. -/
def impliedType (sc : Scope) (decl : LetDecl) : Compiled Ty := do
  match ← sc.expr decl.init with
  | .str _ => return .string
  | .array elements stated =>
    return .array (arrayElementType sc.arena stated none elements)
  | _ => typeOfLane decl.name (← sc.laneOf decl.init)

/-- Declares the local of a `let`, and those of its members. -/
def declareLet (info : ModuleInfo) (arena : Arena) (decl : LetDecl) : FrameM Unit := do
  let sc : Scope := ⟨info, arena, some (← get)⟩
  match ← FrameM.ofCompiled (sc.expr decl.init) with
  | .struct name _ =>
    let layout ← FrameM.ofCompiled (info.structLayout name)
    layout.members.entries.forM fun (member, field) =>
      declare (Scope.flattenedName decl.name member) field.ty
    declare decl.name (decl.ty.getD (.named name))
  | _ =>
    let ty ← FrameM.ofCompiled (match decl.ty with
      | some ty => .ok ty
      | none => impliedType sc decl)
    declare decl.name ty

/-- Declares the locals of a statement. -/
def declareLocals (info : ModuleInfo) (arena : Arena) : StmtId → FrameM Unit :=
  descend (fun parent child => throw (.danglingStmt parent child)) fun id sub =>
    match arena.stmt? id with
    | none => throw (.danglingStmt id id)
    | some (.block stmts) => stmts.forM sub
    | some (.letting decl) => declareLet info arena decl
    | some (.cond _ thenBranch elseBranch) => do
      sub thenBranch
      elseBranch.forM sub
    | some (.whileLoop _ body) => sub body
    | some (.forLoop init _ _ body) => do
      init.forM sub
      sub body
    | some _ => pure ()

end Lower

end WasmBackend
