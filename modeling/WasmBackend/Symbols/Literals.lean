import WasmBackend.Data.Constant
import WasmBackend.Symbols.ModuleInfo
import WasmBackend.Syntax.Walk

/-!
# Placing literals

One walk over a module stores every string, array and struct literal in constant data and records
its address. Children come before their parents, so an array of literals can hold their addresses.

An array literal without an annotation takes its element type from the `let` it initialises or from
the array around it. The walk passes this down as *expectations*, keyed by the expression they are
about. A shared literal is placed again at every visit; the last placement is the one that counts.
-/

namespace WasmBackend

/-- The walk's state. -/
structure Placement where
  data : DataImage
  literals : Table ExprId Nat := {}
  expected : Table ExprId Ty := {}
  deriving DecidableEq

abbrev PlaceM := StateT Placement (Except CompileError)

namespace Placement

/-- The bytes of one array element. -/
def encodeElement (arena : Arena) (literals : Table ExprId Nat) (elementTy : Ty) (s : Scalar)
    (id : ExprId) : Compiled (List UInt8) :=
  match arena.expr? id with
  | none => .error (.danglingExpr id id)
  | some e =>
    if e.isDataLiteral then
      match literals.get? id with
      | none => .error (.unsupportedLiteral ("nested " ++ e.kindName ++ " without an address"))
      | some address =>
        if s.size ≠ 4 ∨ elementTy.lane.isFloat then
          .error (.unsupportedLiteral
            (e.kindName ++ " stored in a `" ++ elementTy.text ++ "` element"))
        else .ok (littleEndian 4 address)
    else
      match Constant.ofExpr? arena id with
      | some c => .ok (c.encode s)
      | none =>
        .error (.unsupportedLiteral ("array element must be a constant, found " ++ e.kindName))

/-- The bytes of an array literal and their alignment. -/
def encodeArray (arena : Arena) (literals : Table ExprId Nat) (elementTy : Ty)
    (elements : List ExprId) : Compiled (List UInt8 × Nat) :=
  match elementTy.storage? with
  | none => .error (.unsupportedLiteral "array of `void` elements")
  | some s => do
    let parts ← elements.mapM (encodeElement arena literals elementTy s)
    return (parts.flatten, min s.size 4)

/-- Overwrites the bytes from `start` on. -/
def overwrite (bytes : List UInt8) (start : Nat) (part : List UInt8) : List UInt8 :=
  bytes.take start ++ part ++ bytes.drop (start + part.length)

/-- The constant that a field initialiser gives; booleans and literals in data do not qualify. -/
def fieldConstant? (arena : Arena) (id : ExprId) : Option Constant :=
  match arena.expr? id with
  | some (.bool _) => none
  | some e => if e.isDataLiteral then none else Constant.ofExpr? arena id
  | none => none

/-- Writes one field initialiser into the bytes of a struct. -/
def encodeField (arena : Arena) (layout : StructLayout) (name : String) (bytes : List UInt8)
    (field : FieldInit) : Compiled (List UInt8) := do
  let member ← layout.member field.name
  match arena.expr? field.value with
  | none => .error (.danglingExpr field.value field.value)
  | some e =>
    match fieldConstant? arena field.value with
    | none =>
      .error (.unsupportedLiteral ("field `" ++ field.name ++ "` of `" ++ name ++
        "` must be a numeric constant, found " ++ e.kindName))
    | some c =>
      match member.ty.storage? with
      | none =>
        .error (.unsupportedLiteral
          ("field `" ++ field.name ++ "` of `" ++ name ++ "` has no storage"))
      | some s => .ok (overwrite bytes member.offset (c.encode s))

/-- The bytes of a struct literal; members without an initialiser are zero. -/
def encodeStruct (arena : Arena) (structs : Table String StructLayout) (name : String)
    (fields : List FieldInit) : Compiled (List UInt8) :=
  match structs.get? name with
  | none => .error (.unknownStruct name)
  | some layout => fields.foldlM (encodeField arena layout name) (List.replicate layout.size 0)

/-- Stores a block and records it as the place of a literal. -/
def place (id : ExprId) (bytes : List UInt8) (align : Nat) : PlaceM Unit := fun p => do
  let (address, data) ← (p.data.addBlock bytes align).compiled
  return ((), { p with data, literals := p.literals.set id address })

/-- Stores a string literal. -/
def placeString (id : ExprId) (content : String) : PlaceM Unit := fun p => do
  let (address, data) ← (p.data.header content).compiled
  return ((), { p with data, literals := p.literals.set id address })

/-- Records the element type expected of an array literal. -/
def expect (id : ExprId) (elementTy : Ty) : PlaceM Unit :=
  modify fun p => { p with expected := p.expected.set id elementTy }

/-- Is this an array literal? -/
def isArray (arena : Arena) (id : ExprId) : Bool :=
  match arena.expr? id with
  | some (.array _ _) => true
  | _ => false

/-- Stores an array literal, its elements first. -/
def placeArray (arena : Arena) (id : ExprId) (elements : List ExprId) (stated : Option Ty)
    (walk : PlaceM Unit) : PlaceM Unit := do
  let elementTy := arrayElementType arena stated ((← get).expected.get? id) elements
  match elementTy.element? with
  | some inner => (elements.filter (isArray arena)).forM fun e => expect e inner
  | none => pure ()
  walk
  let (bytes, align) ← encodeArray arena (← get).literals elementTy elements
  place id bytes align

/-- The visitor that places literals. -/
def visitor (arena : Arena) (structs : Table String StructLayout) : Visitor PlaceM where
  stmt := fun _ s walk => do
    match s with
    | .letting decl =>
      match decl.ty.bind Ty.element? with
      | some elementTy => expect decl.init elementTy
      | none => pure ()
    | _ => pure ()
    walk
  expr := fun id e walk =>
    match e with
    | .str content => placeString id content
    | .array elements stated => placeArray arena id elements stated walk
    | .struct name fields => do
      let bytes ← encodeStruct arena structs name fields
      place id bytes 4
    | _ => walk
  dangling := fun d => throw (.danglingNode d)

end Placement

end WasmBackend
