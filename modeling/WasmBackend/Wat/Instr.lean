import WasmBackend.Types
import WasmBackend.Number.Shortest

/-!
# Instructions

The instructions that lowering uses, one constructor for each shape, and their text. Structured
control is not among them: `Wat.Code` and `Wat.Body` nest instead of bracketing.

An integer constant is kept as it is written; its value is the residue modulo `2^32`, so that an
address above `2^31` and a negative number both have one. A float constant is written either as a
decimal of single precision or as a bare whole number.
-/

namespace WasmBackend

/-- Integer operators of two operands. -/
inductive IntOp where
  | add | sub | mul | divS | remS
  | and | or | xor | shl | shrS
  | eq | ne | ltS | leS | gtS | geS
  deriving DecidableEq, Repr

def IntOp.text : IntOp → String
  | .add => "i32.add"
  | .sub => "i32.sub"
  | .mul => "i32.mul"
  | .divS => "i32.div_s"
  | .remS => "i32.rem_s"
  | .and => "i32.and"
  | .or => "i32.or"
  | .xor => "i32.xor"
  | .shl => "i32.shl"
  | .shrS => "i32.shr_s"
  | .eq => "i32.eq"
  | .ne => "i32.ne"
  | .ltS => "i32.lt_s"
  | .leS => "i32.le_s"
  | .gtS => "i32.gt_s"
  | .geS => "i32.ge_s"

/-- Float operators of two operands. -/
inductive FloatOp where
  | add | sub | mul | div
  | eq | ne | lt | le | gt | ge
  deriving DecidableEq, Repr

def FloatOp.text : FloatOp → String
  | .add => "f32.add"
  | .sub => "f32.sub"
  | .mul => "f32.mul"
  | .div => "f32.div"
  | .eq => "f32.eq"
  | .ne => "f32.ne"
  | .lt => "f32.lt"
  | .le => "f32.le"
  | .gt => "f32.gt"
  | .ge => "f32.ge"

/-- Single precision constants are positional from `10^-4` up to `10^16`, and a tie goes up. -/
def singles : DecimalNotation := ⟨-4, 16, .up⟩

/-- The operand of a float constant. -/
inductive FloatLiteral where
  | decimal (x : Binary32)
  | whole (n : Nat)
  deriving DecidableEq

def FloatLiteral.text : FloatLiteral → String
  | .whole n => toString n
  | .decimal x =>
    if x.isNaN then "nan"
    else if x.isFinite then singles.write .single x.negative x.magnitude
    else if x.negative then "-inf"
    else "inf"

/-- What a loop's label marks: the block to leave, the loop to repeat, the block to skip to its
update. -/
inductive LabelKind where
  | exit
  | again
  | next
  deriving DecidableEq, Repr

/-- A label, numbered by its loop. -/
structure Label where
  kind : LabelKind
  loop : UInt32
  deriving DecidableEq, Repr

def Label.text (l : Label) : String :=
  match l.kind with
  | .exit => "$block_" ++ toString l.loop.toNat
  | .again => "$loop_" ++ toString l.loop.toNat
  | .next => "$continue_" ++ toString l.loop.toNat

inductive Instr where
  | intConst (value : Int)
  | floatConst (value : FloatLiteral)
  | intBinary (op : IntOp)
  | floatBinary (op : FloatOp)
  | intEqz
  | floatNeg
  | floatOfInt
  | intOfFloat
  | load (s : Scalar) (offset : Nat)
  | store (s : Scalar) (offset : Nat)
  | localGet (name : String)
  | localSet (name : String)
  | localTee (name : String)
  | globalGet (name : String)
  | globalSet (name : String)
  | call (name : String)
  | drop
  | branch (label : Label)
  | branchIf (label : Label)
  | ret
  | unreachable
  deriving DecidableEq

namespace Instr

/-- A memory access, with its offset if there is one. -/
def withOffset (opcode : String) (offset : Nat) : String :=
  if offset = 0 then opcode else opcode ++ " offset=" ++ toString offset

def loadOpcode : Scalar → String
  | .i8 => "i32.load8_s"
  | .u8 => "i32.load8_u"
  | .bool => "i32.load8_u"
  | .i16 => "i32.load16_s"
  | .u16 => "i32.load16_u"
  | .i32 => "i32.load"
  | .u32 => "i32.load"
  | .f32 => "f32.load"

def storeOpcode : Scalar → String
  | .i8 => "i32.store8"
  | .u8 => "i32.store8"
  | .bool => "i32.store8"
  | .i16 => "i32.store16"
  | .u16 => "i32.store16"
  | .i32 => "i32.store"
  | .u32 => "i32.store"
  | .f32 => "f32.store"

def text : Instr → String
  | intConst value => "i32.const " ++ toString value
  | floatConst value => "f32.const " ++ value.text
  | intBinary op => op.text
  | floatBinary op => op.text
  | intEqz => "i32.eqz"
  | floatNeg => "f32.neg"
  | floatOfInt => "f32.convert_i32_s"
  | intOfFloat => "i32.trunc_f32_s"
  | load s offset => withOffset (loadOpcode s) offset
  | store s offset => withOffset (storeOpcode s) offset
  | localGet name => "local.get $" ++ name
  | localSet name => "local.set $" ++ name
  | localTee name => "local.tee $" ++ name
  | globalGet name => "global.get $" ++ name
  | globalSet name => "global.set $" ++ name
  | call name => "call $" ++ name
  | drop => "drop"
  | branch label => "br " ++ label.text
  | branchIf label => "br_if " ++ label.text
  | ret => "return"
  | unreachable => "unreachable"

end Instr

end WasmBackend
