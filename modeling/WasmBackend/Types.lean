/-!
# Declared types and value lanes

A declaration names a type; the target machine knows only two kinds of values. Between the two
stands the *lane*: what a type reduces to on the machine's operand stack. Booleans keep a lane of
their own although they travel as integers, because a condition may use them as they are while an
integer has to be compared with zero first.

References (pointers, arrays, structs) are addresses: four bytes wide, integer lane, stored like an
unsigned word.
-/

namespace WasmBackend

/-- The value types of the target machine. -/
inductive ValType where
  | i32
  | f32
  deriving DecidableEq, Repr, Inhabited

def ValType.text : ValType → String
  | .i32 => "i32"
  | .f32 => "f32"

/-! ## Lanes -/

inductive Lane where
  | int
  | float
  | bool
  | void
  deriving DecidableEq, Repr, Inhabited

namespace Lane

/-- The machine type of a lane's values; nothing travels in the void lane. -/
def valType? : Lane → Option ValType
  | int => some .i32
  | bool => some .i32
  | float => some .f32
  | void => none

/-- The letter of a lane in an encoded signature. -/
def letter : Lane → Char
  | int => 'i'
  | bool => 'i'
  | float => 'f'
  | void => 'v'

def isFloat : Lane → Bool
  | float => true
  | _ => false

end Lane

/-! ## Scalars -/

inductive Scalar where
  | i8
  | u8
  | i16
  | u16
  | i32
  | u32
  | f32
  | bool
  deriving DecidableEq, Repr, Inhabited

namespace Scalar

def all : List Scalar := [i8, u8, i16, u16, i32, u32, f32, bool]

def name : Scalar → String
  | i8 => "i8"
  | u8 => "u8"
  | i16 => "i16"
  | u16 => "u16"
  | i32 => "i32"
  | u32 => "u32"
  | f32 => "f32"
  | bool => "bool"

def ofName? (s : String) : Option Scalar := all.find? (fun scalar => scalar.name == s)

/-- Width in bytes. -/
def size : Scalar → Nat
  | i8 => 1
  | u8 => 1
  | bool => 1
  | i16 => 2
  | u16 => 2
  | i32 => 4
  | u32 => 4
  | f32 => 4

def isSigned : Scalar → Bool
  | i8 => true
  | i16 => true
  | i32 => true
  | f32 => true
  | _ => false

def lane : Scalar → Lane
  | f32 => .float
  | bool => .bool
  | _ => .int

end Scalar

/-! ## Type annotations -/

inductive Ty where
  | scalar (s : Scalar)
  | pointer (target : Ty)
  | array (element : Ty)
  | named (name : String)
  | void
  deriving DecidableEq, Repr, Inhabited

namespace Ty

def i32 : Ty := scalar .i32
def f32 : Ty := scalar .f32
def bool : Ty := scalar .bool

/-- The type of string literals. -/
def string : Ty := named "string"

/-- The canonical spelling: no white space. -/
def text : Ty → String
  | scalar s => s.name
  | pointer t => "*" ++ t.text
  | array t => t.text ++ "[]"
  | named name => name
  | void => "void"

/-- Width in bytes of a value, or of the reference to it. -/
def size : Ty → Nat
  | scalar s => s.size
  | void => 0
  | _ => 4

def lane : Ty → Lane
  | scalar s => s.lane
  | void => .void
  | _ => .int

/-- What indexing or dereferencing gives. -/
def element? : Ty → Option Ty
  | array t => some t
  | pointer t => some t
  | _ => none

/-- The struct that a value of this type gives access to: itself or through one pointer. -/
def structName? : Ty → Option String
  | named name => some name
  | pointer (named name) => some name
  | _ => none

/-- How a value of this type is kept in memory. -/
def storage? : Ty → Option Scalar
  | scalar s => some s
  | void => none
  | _ => some .u32

def isVoid : Ty → Bool
  | void => true
  | _ => false

end Ty

end WasmBackend
