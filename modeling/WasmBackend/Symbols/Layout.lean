import WasmBackend.Symbols.Table
import WasmBackend.Syntax.Tree
import WasmBackend.Data.Image

/-!
# Struct layouts

Members follow each other in declaration order without padding.
-/

namespace WasmBackend

structure MemberLayout where
  offset : Nat
  size : Nat
  ty : Ty
  deriving DecidableEq, Repr, Inhabited

structure StructLayout where
  name : String
  size : Nat
  exported : Bool
  members : Table String MemberLayout
  deriving DecidableEq, Repr, Inhabited

namespace StructLayout

/-- Adds a member at the end. -/
def addMember (l : StructLayout) (field : Binding) : Compiled StructLayout :=
  let size := field.ty.size
  match l.members.insert? field.name ⟨l.size, size, field.ty⟩ with
  | none => .error (.duplicateDefinition .member (l.name ++ "." ++ field.name))
  | some members =>
    if addressSpace ≤ l.size + size then .error (.addressOverflow (l.size + size))
    else .ok { l with size := l.size + size, members := members }

def ofFields (name : String) (fields : List Binding) (exported : Bool) : Compiled StructLayout :=
  fields.foldlM addMember ⟨name, 0, exported, {}⟩

def member (l : StructLayout) (name : String) : Compiled MemberLayout :=
  match l.members.get? name with
  | some m => .ok m
  | none => .error (.unknownMember l.name name)

end StructLayout

end WasmBackend
