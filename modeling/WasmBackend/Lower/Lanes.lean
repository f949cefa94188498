import WasmBackend.Lower.Scope

/-!
# The lanes of expressions

`infer` derives the lane of an expression as the language defines it; prefix, postfix and member
expressions have none there. `laneOf` extends it to every expression that can be lowered. One float
operand makes an arithmetic expression a float.
-/

namespace WasmBackend.Scope

/-- The lane of an operation on two lanes. -/
def promote (left right : Lane) : Lane :=
  if left.isFloat || right.isFloat then .float else .int

/-- The lane of a call. That of an imported function is read off its encoded signature. -/
def callLane (sc : Scope) (callee : String) : Compiled Lane :=
  match sc.info.functions.get? callee with
  | some f => .ok f.signature.resultLane
  | none =>
    match sc.info.imports.get? callee with
    | none => .error (.unknownFunction callee)
    | some i => do
      match ← i.resolved with
      | .function s => Signature.decodeResult s.encoded
      | _ => .error (.unknownFunction callee)

/-- The element type of what an identifier names; other expressions have none. -/
def elementType (sc : Scope) (base : Expr) : Compiled (Option Ty) :=
  match base with
  | .ident name => do return (← sc.lookup name).ty.element?
  | _ => .ok none

/-- How the target of a pointer or an element of an array is stored; a word if nothing is known. -/
def elementScalar (sc : Scope) (base : ExprId) : Compiled Scalar := do
  let element ← sc.elementType (← sc.expr base)
  return (element.bind Ty.storage?).getD .i32

/-- The variable and the layout of a member that is reached through memory. -/
def memberOf (sc : Scope) (base : ExprId) (member : String) :
    Compiled (Variable × MemberLayout) := do
  match ← sc.expr base with
  | .ident name =>
    let v ← sc.lookup name
    match v.ty.structName? with
    | none =>
      .error (.notImplemented ("member access on `" ++ name ++ "` of type `" ++ v.ty.text ++ "`"))
    | some structName =>
      let layout ← sc.info.structLayout structName
      return (v, ← layout.member member)
  | e => .error (.notImplemented ("member access on " ++ e.kindName))

/-! ## Inference -/

def inferStep (sc : Scope) (id : ExprId) (sub : ExprId → Compiled Lane) : Compiled Lane := do
  let e ← sc.expr id
  match e with
  | .int _ => .ok .int
  | .char _ => .ok .int
  | .float _ => .ok .float
  | .bool _ => .ok .bool
  -- Literals in data evaluate to their address.
  | .str _ => .ok .int
  | .array _ _ => .ok .int
  | .struct _ _ => .ok .int
  | .ident name => return (← sc.lookup name).ty.lane
  | .index base _ =>
    let element ← sc.elementType (← sc.expr base)
    return (element.map Ty.lane).getD .int
  | .binary op left right =>
    if op.isComparison || op.isLogical then .ok .bool
    else return promote (← sub left) (← sub right)
  | .call callee _ => sc.callLane callee
  | .assign _ value => sub value
  | e => .error (.notImplemented ("type inference for " ++ e.kindName))

/-- The lane of an expression, for those that the language gives one. -/
def infer (sc : Scope) : ExprId → Compiled Lane :=
  descend (fun parent child => .error (.danglingExpr parent child)) (inferStep sc)

/-- As `infer`, with nothing in place of "not implemented". -/
def tryInfer (sc : Scope) (id : ExprId) : Compiled (Option Lane) :=
  match sc.infer id with
  | .ok lane => .ok (some lane)
  | .error (.notImplemented _) => .ok none
  | .error e => .error e

def laneOfStep (sc : Scope) (id : ExprId) (sub : ExprId → Compiled Lane) : Compiled Lane := do
  match ← sc.expr id with
  | .binary op left right =>
    if op.isComparison || op.isLogical then .ok .bool
    else return promote (← sub left) (← sub right)
  | .assign _ value => sub value
  | .unary .neg operand => return if (← sub operand).isFloat then .float else .int
  | .unary .not _ => .ok .bool
  | .unary .bitNot _ => .ok .int
  | .unary .deref operand => return (← sc.elementScalar operand).lane
  | .update _ operand =>
    match ← sc.expr operand with
    | .ident name => return (← sc.lookup name).ty.lane
    | e => .error (.notImplemented ("postfix update of " ++ e.kindName))
  | .member base name =>
    match sc.flattenedMember? base name with
    | some v => .ok v.ty.lane
    | none => return (← sc.memberOf base name).2.ty.lane
  | .pointerMember base name => return (← sc.memberOf base name).2.ty.lane
  | _ => sc.infer id

/-- The lane of an expression. -/
def laneOf (sc : Scope) : ExprId → Compiled Lane :=
  descend (fun parent child => .error (.danglingExpr parent child)) (laneOfStep sc)

end WasmBackend.Scope
