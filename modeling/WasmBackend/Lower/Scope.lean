import WasmBackend.Lower.Frame
import WasmBackend.Data.Constant

/-!
# Scopes

What names mean at a point of a module: visible locals first, then parameters, then globals, then
imported globals. Outside functions there is no frame, and only the last two count.
-/

namespace WasmBackend

structure Scope where
  info : ModuleInfo
  arena : Arena
  frame : Option Frame

namespace Scope

/-- What a name means among the module's globals and imports. -/
def lookupGlobal (sc : Scope) (name : String) : Compiled Variable :=
  match sc.info.globals.get? name with
  | some g =>
    match g.storage with
    | .register => .ok ⟨name, .global, g.ty⟩
    | .memory address => .ok ⟨name, .memory address, g.ty⟩
  | none =>
    match sc.info.imports.get? name with
    | none => .error (.unknownVariable name)
    | some i => do
      match ← i.resolved with
      | .global ty memoryBacked =>
        return ⟨name, if memoryBacked then .importedMemory else .global, ty⟩
      | _ => .error (.unknownVariable name)

/-- What a name means inside the function, if it means anything there. -/
def lookupLocal? (sc : Scope) (name : String) : Option Variable :=
  match sc.frame with
  | none => none
  | some f =>
    match f.visibleLocal? name with
    | some v => some v
    | none => f.params.get? name

def lookup (sc : Scope) (name : String) : Compiled Variable :=
  match sc.lookupLocal? name with
  | some v => .ok v
  | none => sc.lookupGlobal name

/-- The name of the local that holds a member of a struct local. -/
def flattenedName (base member : String) : String := base ++ "_" ++ member

/-- The local that holds a member of a struct local. -/
def flattened? (sc : Scope) (base member : String) : Option Variable :=
  sc.frame.bind fun f => f.visibleLocal? (flattenedName base member)

def expr (sc : Scope) (id : ExprId) : Compiled Expr :=
  match sc.arena.expr? id with
  | some e => .ok e
  | none => .error (.danglingExpr id id)

def constant? (sc : Scope) (id : ExprId) : Option Constant := Constant.ofExpr? sc.arena id

/-- The flattened local that a member expression means, if its base is an identifier. -/
def flattenedMember? (sc : Scope) (base : ExprId) (member : String) : Option Variable :=
  match sc.arena.expr? base with
  | some (.ident name) => sc.flattened? name member
  | _ => none

end Scope

end WasmBackend
