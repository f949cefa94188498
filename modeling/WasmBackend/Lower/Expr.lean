import WasmBackend.Lower.Lanes

/-!
# Lowering expressions

Expression code leaves its value on the operand stack. `lower` is the recursion; everything it is
made of takes the code of subexpressions as a parameter `sub`, so that each rule can be read, and
reasoned about, without the recursion around it.

A value is wanted in one of three ways: in a given lane (`asLane`, which folds constants and
converts), as a condition (`condition`, any non-zero integer or float), or not at all (`discard`).
-/

namespace WasmBackend

namespace Instr

/-- Pushes a variable's value; that of constant data is its address. -/
def get (v : Variable) : Instr :=
  match v.scope with
  | .localVar => localGet v.name
  | .param => localGet v.name
  | .global => globalGet v.name
  | .importedMemory => globalGet v.name
  | .memory address => intConst address

/-- The instruction that stores into a variable. Constant data has none. -/
def set (v : Variable) : Compiled Instr :=
  match v.scope with
  | .localVar => .ok (localSet v.name)
  | .param => .ok (localSet v.name)
  | .global => .ok (globalSet v.name)
  | _ => .error (.notImplemented ("assignment to constant data `" ++ v.name ++ "`"))

/-- The signed 32-bit number that an integer literal wraps to. -/
def wrapped (value : Int64) : Int := value.toInt32.toInt

/-- A float literal is rounded to single precision. -/
def single (value : Binary64) : Instr := floatConst (.decimal value.toBinary32)

/-- A constant in a lane. -/
def constant (c : Constant) (lane : Lane) : Instr :=
  if lane.isFloat then single c.toBinary64 else intConst (wrapped c.toInt64)

/-- The conversion between two lanes, if they differ. -/
def convert? (source target : Lane) : Option Instr :=
  match source.isFloat, target with
  | false, .float => some floatOfInt
  | true, .int => some intOfFloat
  | true, .bool => some intOfFloat
  | _, _ => none

/-- A binary operator on integers. -/
def intOp : BinaryOp → IntOp
  | .add => .add
  | .sub => .sub
  | .mul => .mul
  | .div => .divS
  | .rem => .remS
  | .eq => .eq
  | .notEq => .ne
  | .lt => .ltS
  | .ltEq => .leS
  | .gt => .gtS
  | .gtEq => .geS
  | .and => .and
  | .or => .or
  | .bitAnd => .and
  | .bitOr => .or
  | .bitXor => .xor
  | .shl => .shl
  | .shr => .shrS

/-- A binary operator on floats, for those that have one. -/
def floatOp? : BinaryOp → Option FloatOp
  | .add => some .add
  | .sub => some .sub
  | .mul => some .mul
  | .div => some .div
  | .eq => some .eq
  | .notEq => some .ne
  | .lt => some .lt
  | .ltEq => some .le
  | .gt => some .gt
  | .gtEq => some .ge
  | _ => none

/-- A binary operator in the float or the integer lane. -/
def binary (op : BinaryOp) (float : Bool) : Instr :=
  if float then
    match floatOp? op with
    | some f => floatBinary f
    | none => unreachable
  else intBinary (intOp op)

end Instr

namespace Lower

variable (sc : Scope) (sub : ExprId → Compiled Code)

/-! ## The three ways to want a value -/

/-- The value in this lane. -/
def asLaneWith (id : ExprId) (lane : Lane) : Compiled Code :=
  if lane = .void then sub id
  else
    match sc.constant? id with
    | some c => .ok (.one (.constant c lane))
    | none => do
      let source ← sc.laneOf id
      let code ← sub id
      match Instr.convert? source lane with
      | some i => return code ++ .one i
      | none => return code

/-- An integer that is zero exactly when the value is. -/
def conditionWith (id : ExprId) : Compiled Code := do
  let lane ← sc.laneOf id
  let code ← sub id
  if lane.isFloat then return code ++ .ofList [.floatConst (.whole 0), .floatBinary .ne]
  else return code

/-- One if the value is not zero, else zero. A boolean is that already. -/
def truthWith (id : ExprId) : Compiled Code := do
  let lane ← sc.laneOf id
  let code ← conditionWith sc sub id
  if lane = .int then return code ++ .ofList [.intConst 0, .intBinary .ne]
  else return code

/-! ## Operators -/

def logicalWith (op : BinaryOp) (left right : ExprId) : Compiled Code := do
  let first ← truthWith sc sub left
  let second ← truthWith sc sub right
  if op = .and then return first ++ .ifElse second (.one (.intConst 0))
  else return first ++ .ifElse (.one (.intConst 1)) second

def binaryWith (op : BinaryOp) (left right : ExprId) : Compiled Code := do
  if op.isLogical then logicalWith sc sub op left right
  else
    let leftLane ← sc.laneOf left
    let rightLane ← sc.laneOf right
    let float := leftLane.isFloat || rightLane.isFloat
    if float && op.isIntegerOnly then
      .error (.notImplemented ("operator `" ++ op.symbol ++ "` on f32 operands"))
    else
      let lane := Scope.promote leftLane rightLane
      let first ← asLaneWith sc sub left lane
      let second ← asLaneWith sc sub right lane
      return first ++ second ++ .one (.binary op float)

def negateWith (id operand : ExprId) : Compiled Code :=
  match sc.constant? id with
  | some (.int value) => .ok (.one (.constant (.int value) .int))
  | some (.float value) => .ok (.one (.constant (.float value) .float))
  | none => do
    if (← sc.laneOf operand).isFloat then return (← sub operand) ++ .one .floatNeg
    else return .one (.intConst 0) ++ (← asLaneWith sc sub operand .int) ++ .one (.intBinary .sub)

def unaryWith (id : ExprId) (op : PrefixOp) (operand : ExprId) : Compiled Code :=
  match op with
  | .neg => negateWith sc sub id operand
  | .not => do return (← conditionWith sc sub operand) ++ .one .intEqz
  | .bitNot => do
    return (← asLaneWith sc sub operand .int) ++ .ofList [.intConst (-1), .intBinary .xor]
  | .deref => do
    let s ← sc.elementScalar operand
    return (← sub operand) ++ .one (.load s 0)

/-- Counts a variable up or down; with `keep` the old value stays on the stack. -/
def update (op : PostfixOp) (operand : ExprId) (keep : Bool) : Compiled Code := do
  match ← sc.expr operand with
  | .ident name =>
    let v ← sc.lookup name
    let set ← Instr.set v
    let step : List Instr :=
      match v.ty.lane.isFloat, op with
      | true, .increment => [.floatConst (.whole 1), .floatBinary .add]
      | true, .decrement => [.floatConst (.whole 1), .floatBinary .sub]
      | false, .increment => [.intConst 1, .intBinary .add]
      | false, .decrement => [.intConst 1, .intBinary .sub]
    let old : List Instr := if keep then [.get v] else []
    return .ofList (old ++ .get v :: step ++ [set])
  | e => .error (.notImplemented ("postfix update of " ++ e.kindName))

/-! ## Calls -/

def signatureOf (callee : String) : Compiled Signature :=
  match sc.info.functions.get? callee with
  | some f => .ok f.signature
  | none =>
    match sc.info.imports.get? callee with
    | none => .error (.unknownFunction callee)
    | some i => do
      match ← i.resolved with
      | .function s => return s
      | _ => .error (.unknownFunction callee)

/-- The arguments, each in the lane of its parameter. -/
def argumentsWith : List (ExprId × Lane) → Compiled Code
  | [] => .ok .nil
  | (arg, lane) :: rest => do
    let first ← asLaneWith sc sub arg lane
    return first ++ (← argumentsWith rest)

/-- The code of a call and the lane of its result. -/
def callWith (callee : String) (args : List ExprId) : Compiled (Code × Lane) := do
  let signature ← signatureOf sc callee
  if signature.arity ≠ args.length then
    .error (.arityMismatch callee signature.arity args.length)
  else
    let code ← argumentsWith sc sub (args.zip signature.paramLanes)
    return (code ++ .one (.call callee), signature.resultLane)

/-! ## Memory -/

/-- A place in memory: code that pushes an address, how the place is stored, and the offset of the
access. -/
structure Place where
  address : Code
  scalar : Scalar
  offset : Nat

/-- Scales an index by the size of an element and adds it to the base. -/
def scaleIndex (s : Scalar) : Code :=
  if s.size = 1 then .one (.intBinary .add)
  else .ofList [.intConst s.size, .intBinary .mul, .intBinary .add]

/-- The place of an array element. A literal index of zero needs no arithmetic. -/
def elementWith (base position : ExprId) : Compiled Place := do
  let s ← sc.elementScalar base
  let code ← sub base
  match ← sc.expr position with
  | .int 0 => return ⟨code, s, 0⟩
  | _ =>
    let index ← asLaneWith sc sub position .int
    return ⟨code ++ index ++ scaleIndex s, s, 0⟩

/-- The place of a struct member. -/
def memberPlace (base : ExprId) (member : String) : Compiled Place := do
  let (v, layout) ← sc.memberOf base member
  match layout.ty.storage? with
  | none => .error (.notImplemented ("member `" ++ member ++ "` of type `void`"))
  | some s => return ⟨.one (.get v), s, layout.offset⟩

def Place.load (p : Place) : Code := p.address ++ .one (.load p.scalar p.offset)

/-- A member of a struct, from its flattened local if that may be used. -/
def member (base : ExprId) (name : String) (allowFlattened : Bool) : Compiled Code :=
  match if allowFlattened then sc.flattenedMember? base name else none with
  | some v => .ok (.one (.get v))
  | none => do return (← memberPlace sc base name).load

/-! ## Assignment -/

/-- The place that an assignment target denotes, for targets other than variables. -/
def targetPlaceWith : Expr → Compiled Place
  | .index base position => elementWith sc sub base position
  | .member base name => memberPlace sc base name
  | .pointerMember base name => memberPlace sc base name
  | .unary .deref operand => do
    let s ← sc.elementScalar operand
    return ⟨← sub operand, s, 0⟩
  | e => .error (.notImplemented ("assignment to " ++ e.kindName))

/-- Assigns to a member that has a flattened local: the local and memory both get the value. -/
def assignFlattenedWith (v : Variable) (base : ExprId) (name : String) (value : ExprId)
    (keep : Bool) : Compiled Code := do
  let place ← memberPlace sc base name
  let code ← asLaneWith sc sub value v.ty.lane
  let kept : List Instr := if keep then [.get v] else []
  return place.address ++ code ++
    .ofList (.localTee v.name :: .store place.scalar place.offset :: kept)

/-- Assigns to a variable. -/
def assignVariableWith (v : Variable) (value : ExprId) (keep : Bool) : Compiled Code := do
  let set ← Instr.set v
  let code ← asLaneWith sc sub value v.ty.lane
  if keep then
    if v.isLocal then return code ++ .one (.localTee v.name)
    else return code ++ .ofList [set, .get v]
  else return code ++ .one set

/-- Assigns through memory. The value cannot be kept. -/
def assignPlaceWith (target : Expr) (value : ExprId) (keep : Bool) : Compiled Code := do
  if keep then .error (.notImplemented ("value of an assignment to " ++ target.kindName))
  else
    let place ← targetPlaceWith sc sub target
    let code ← asLaneWith sc sub value place.scalar.lane
    return place.address ++ code ++ .one (.store place.scalar place.offset)

/-- An assignment; with `keep` the assigned value stays on the stack. -/
def assignWith (target value : ExprId) (keep : Bool) : Compiled Code := do
  match ← sc.expr target with
  | .ident name => assignVariableWith sc sub (← sc.lookup name) value keep
  | .member base name =>
    match sc.flattenedMember? base name with
    | some v => assignFlattenedWith sc sub v base name value keep
    | none => assignPlaceWith sc sub (.member base name) value keep
  | e => assignPlaceWith sc sub e value keep

/-! ## Expressions -/

def lowerStep (id : ExprId) (sub : ExprId → Compiled Code) : Compiled Code := do
  let e ← sc.expr id
  match e with
  | .int value => return .one (.intConst (Instr.wrapped value))
  | .float value => return .one (.single value)
  | .bool value => return .one (.intConst (if value then 1 else 0))
  | .char value => return .one (.intConst value.toNat)
  | .ident name => return .one (.get (← sc.lookup name))
  | .binary op left right => binaryWith sc sub op left right
  | .unary op operand => unaryWith sc sub id op operand
  | .update op operand => update sc op operand true
  | .call callee args => return (← callWith sc sub callee args).1
  | .index base position => return (← elementWith sc sub base position).load
  | .member base name => member sc base name true
  | .pointerMember base name => member sc base name false
  | .assign target value => assignWith sc sub target value true
  -- What is left are literals in constant data.
  | e =>
    match sc.info.literals.get? id with
    | some address => return .one (.intConst address)
    | none => .error (.unsupportedLiteral (e.kindName ++ " has no constant data"))

/-- The code of an expression. -/
def lower : ExprId → Compiled Code :=
  descend (fun parent child => .error (.danglingExpr parent child)) (lowerStep sc)

/-- An expression's value in a lane. -/
def asLane (id : ExprId) (lane : Lane) : Compiled Code := asLaneWith sc (lower sc) id lane

/-- An expression as a condition. -/
def condition (id : ExprId) : Compiled Code := conditionWith sc (lower sc) id

/-- An assignment of one expression to another. -/
def assign (target value : ExprId) (keep : Bool) : Compiled Code :=
  assignWith sc (lower sc) target value keep

/-- Drops a value, unless there is none. -/
def dropValue (code : Code) (lane : Lane) : Code :=
  if lane = .void then code else code ++ .one .drop

/-- An expression for its effect only. -/
def discard (id : ExprId) : Compiled Code := do
  match ← sc.expr id with
  | .assign target value => assignWith sc (lower sc) target value false
  | .update op operand => update sc op operand false
  | .call callee args => do
    let (code, lane) ← callWith sc (lower sc) callee args
    return dropValue code lane
  | _ => do
    let lane ← sc.laneOf id
    return dropValue (← lower sc id) lane

end Lower

end WasmBackend
