import WasmBackend.Syntax.Tree
import WasmBackend.Data.Image

/-!
# Constants

The expressions whose value is known without running anything: number, boolean and character
literals, and a number literal under one minus sign. A constant can be stored in a slot of any
scalar type: integers wrap to the slot's width, floats are cut to integers (or clamped), integers
round to floats.
-/

namespace WasmBackend

inductive Constant where
  | int (value : Int64)
  | float (value : Binary64)
  deriving DecidableEq

namespace Constant

/-- The constant that an expression denotes. -/
def ofExpr? (arena : Arena) (id : ExprId) : Option Constant :=
  match arena.expr? id with
  | some (.int value) => some (int value)
  | some (.float value) => some (float value)
  | some (.bool value) => some (int (if value then 1 else 0))
  | some (.char value) => some (int (Int64.ofInt value.toNat))
  | some (.unary .neg operand) =>
    match arena.expr? operand with
    | some (.int value) => some (int (-value))
    | some (.float value) => some (float (-value))
    | _ => none
  | _ => none

def toInt64 : Constant → Int64
  | int value => value
  | float value => value.toInt64

def toBinary64 : Constant → Binary64
  | int value => Binary64.ofInt value.toInt
  | float value => value

/-- The bytes of the constant in a slot of this type. -/
def encode (s : Scalar) (c : Constant) : List UInt8 :=
  match s with
  | .f32 => littleEndian 4 c.toBinary64.toBinary32.bits.toNat
  | _ => littleEndian s.size c.toInt64.toUInt64.toNat

end Constant

/-- The element type of an array literal: its own annotation, else what its surroundings expect,
else `f32` if one of its elements is a float constant, else `i32`. -/
def arrayElementType (arena : Arena) (stated expected : Option Ty) (elements : List ExprId) :
    Ty :=
  match stated with
  | some t => t
  | none =>
    match expected with
    | some t => t
    | none =>
      if elements.any (fun e =>
          match Constant.ofExpr? arena e with
          | some (.float _) => true
          | _ => false)
      then .f32 else .i32

end WasmBackend
