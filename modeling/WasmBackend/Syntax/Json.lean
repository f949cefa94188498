import WasmBackend.Syntax.Tree
import WasmBackend.Types.Parser
import WasmBackend.Json.Value

/-!
# Stored syntax trees

The JSON form in which a front end hands modules over. A node is an object with one field, whose
name says what the node is; nodes that carry nothing are bare strings.

Reading is lenient where that costs nothing: unknown fields are skipped, optional ones may be
missing, types may be spelled with white space, a whole number does for a float. Declarations, the
arena and the module itself may also be given as the array of all their values. Whether the parts of
other nodes may be is up to whoever hands the module over. Writing always gives the full canonical
form.
-/

namespace WasmBackend

/-! ## Reading -/

def Ty.ofJson? (j : Json) : Option Ty := do
  match Ty.parse (← j.str?) with
  | .ok t => some t
  | .error _ => none

/-- Reads a required field. -/
def Json.required? {α : Type} (read : Json → Option α) : Option Json → Option α
  | some j => read j
  | none => none

/-- Reads an optional field: missing is the same as `null`. -/
def Json.optional? {α : Type} (read : Json → Option α) : Option Json → Option (Option α)
  | some j => j.option? read
  | none => some none

open Json (required? optional?)

/-- An index into an arena. -/
def Json.nodeId? (j : Json) : Option Nat := j.nat32?

def FieldInit.ofJson? (j : Json) : Option FieldInit := do
  let [name, value] ← j.record? ["name", "value"] | none
  return ⟨← required? Json.str? name, ← required? Json.nodeId? value⟩

def Binding.ofJson? (j : Json) : Option Binding := do
  let [name, ty] ← j.record? ["name", "ty"] | none
  return ⟨← required? Json.str? name, ← required? Ty.ofJson? ty⟩

def FunctionDecl.ofJson? (j : Json) : Option FunctionDecl := do
  let [name, params, result, body, exported] ←
    j.record? ["name", "params", "result", "body", "exported"] | none
  return {
    name := ← required? Json.str? name
    params := ← required? (Json.list? Binding.ofJson?) params
    result := ← required? Ty.ofJson? result
    body := ← required? Json.nodeId? body
    exported := ← required? Json.bool? exported }

def StructDecl.ofJson? (j : Json) : Option StructDecl := do
  let [name, fields, exported] ← j.record? ["name", "fields", "exported"] | none
  return {
    name := ← required? Json.str? name
    fields := ← required? (Json.list? Binding.ofJson?) fields
    exported := ← required? Json.bool? exported }

def ImportDecl.ofJson? (j : Json) : Option ImportDecl := do
  let [source, names] ← j.record? ["module", "names"] | none
  return ⟨← required? Json.str? source, ← required? (Json.list? Json.str?) names⟩

def LetDecl.ofJson? (j : Json) : Option LetDecl := do
  let [name, ty, init, exported] ← j.record? ["name", "ty", "init", "exported"] | none
  return {
    name := ← required? Json.str? name
    ty := ← optional? Ty.ofJson? ty
    init := ← required? Json.nodeId? init
    exported := ← required? Json.bool? exported }

/-- How the parts of a node are given: by name only, or also by position, as the array of them all.
A stored text may use positions; a module that is handed over as a value names its parts. -/
inductive NodeForm where
  | named
  | positional
  deriving DecidableEq, Repr

/-- The parts of a node in the order of `names`, each with its value if it has one. -/
def NodeForm.parts? (form : NodeForm) (names : List String) (j : Json) :
    Option (List (Option Json)) :=
  match form with
  | named => j.named? names
  | positional => j.record? names

/-- An operator, given how its name is read. -/
def Json.operator? {α : Type} (ofName? : String → Option α) (j : Json) : Option α := do
  ofName? (← j.bareTag?)

/-- The expression with this tag and content. -/
def Expr.ofTagged? (form : NodeForm) (tag : String) (j : Json) : Option Expr :=
  match tag with
  | "Ident" => j.str?.map ident
  | "Int" => j.int64?.map int
  | "Float" => j.float?.map float
  | "Bool" => j.bool?.map bool
  | "Char" => j.char?.map char
  | "Str" => j.str?.map str
  | "Array" => do
    let [elements, elementType] ← form.parts? ["elements", "element_type"] j | none
    return array (← required? (Json.list? Json.nodeId?) elements)
      (← optional? Ty.ofJson? elementType)
  | "Struct" => do
    let [name, fields] ← form.parts? ["name", "fields"] j | none
    return struct (← required? Json.str? name) (← required? (Json.list? FieldInit.ofJson?) fields)
  | "Infix" => do
    let [op, left, right] ← form.parts? ["op", "left", "right"] j | none
    return binary (← required? (Json.operator? BinaryOp.ofName?) op)
      (← required? Json.nodeId? left) (← required? Json.nodeId? right)
  | "Prefix" => do
    let [op, operand] ← form.parts? ["op", "operand"] j | none
    return unary (← required? (Json.operator? PrefixOp.ofName?) op)
      (← required? Json.nodeId? operand)
  | "Postfix" => do
    let [op, operand] ← form.parts? ["op", "operand"] j | none
    return update (← required? (Json.operator? PostfixOp.ofName?) op)
      (← required? Json.nodeId? operand)
  | "Call" => do
    let [callee, args] ← form.parts? ["callee", "args"] j | none
    return call (← required? Json.str? callee) (← required? (Json.list? Json.nodeId?) args)
  | "Index" => do
    let [base, position] ← form.parts? ["base", "index"] j | none
    return index (← required? Json.nodeId? base) (← required? Json.nodeId? position)
  | "Member" => do
    let [base, name] ← form.parts? ["base", "member"] j | none
    return member (← required? Json.nodeId? base) (← required? Json.str? name)
  | "PointerMember" => do
    let [base, name] ← form.parts? ["base", "member"] j | none
    return pointerMember (← required? Json.nodeId? base) (← required? Json.str? name)
  | "Assign" => do
    let [target, value] ← form.parts? ["target", "value"] j | none
    return assign (← required? Json.nodeId? target) (← required? Json.nodeId? value)
  | _ => none

def Expr.ofJson? (form : NodeForm) (j : Json) : Option Expr :=
  match j.tagged? with
  | some (tag, some content) => ofTagged? form tag content
  | _ => none

/-- The statement with this tag and content. -/
def Stmt.ofTagged? (form : NodeForm) (tag : String) (j : Json) : Option Stmt :=
  match tag with
  | "Block" => (j.list? Json.nodeId?).map block
  | "Function" => (FunctionDecl.ofJson? j).map function
  | "Struct" => (StructDecl.ofJson? j).map struct
  | "Import" => (ImportDecl.ofJson? j).map importing
  | "Let" => (LetDecl.ofJson? j).map letting
  | "If" => do
    let [condition, thenBranch, elseBranch] ←
      form.parts? ["condition", "then_branch", "else_branch"] j | none
    return cond (← required? Json.nodeId? condition) (← required? Json.nodeId? thenBranch)
      (← optional? Json.nodeId? elseBranch)
  | "While" => do
    let [condition, body] ← form.parts? ["condition", "body"] j | none
    return whileLoop (← required? Json.nodeId? condition) (← required? Json.nodeId? body)
  | "For" => do
    let [init, condition, update, body] ←
      form.parts? ["init", "condition", "update", "body"] j | none
    return forLoop (← optional? Json.nodeId? init) (← required? Json.nodeId? condition)
      (← optional? Json.nodeId? update) (← required? Json.nodeId? body)
  | "Return" => (j.option? Json.nodeId?).map ret
  | "Expr" => j.nodeId?.map expr
  | _ => none

def Stmt.ofJson? (form : NodeForm) (j : Json) : Option Stmt :=
  match j.bareTag? with
  | some "Break" => some breakLoop
  | some "Continue" => some continueLoop
  | _ =>
    match j.tagged? with
    | some (tag, some content) => ofTagged? form tag content
    | _ => none

def Arena.ofJson? (form : NodeForm) (j : Json) : Option Arena := do
  let [exprs, stmts] ← j.record? ["exprs", "stmts"] | none
  return ⟨(← required? (Json.list? (Expr.ofJson? form)) exprs).toArray,
    (← required? (Json.list? (Stmt.ofJson? form)) stmts).toArray⟩

def Module.ofJson? (form : NodeForm) (j : Json) : Option Module := do
  let [name, items, arena] ← j.record? ["name", "items", "arena"] | none
  return ⟨← required? Json.str? name, ← required? (Json.list? Json.nodeId?) items,
    ← required? (Arena.ofJson? form) arena⟩

/-! ## Writing -/

namespace Json

def nat (n : Nat) : Json := int n

def ids (l : List Nat) : Json := arr (l.map nat)

/-- `null` for nothing. -/
def opt {α : Type} (write : α → Json) : Option α → Json
  | some a => write a
  | none => null

def ofTy (t : Ty) : Json := str t.text

/-- An object with one field. -/
def tag (name : String) (content : Json) : Json := obj [(name, content)]

end Json

open Json (nat ids opt ofTy tag)

def Binding.toJson (b : Binding) : Json := .obj [("name", .str b.name), ("ty", ofTy b.ty)]

def FieldInit.toJson (f : FieldInit) : Json := .obj [("name", .str f.name), ("value", nat f.value)]

def Expr.toJson : Expr → Json
  | ident name => tag "Ident" (.str name)
  | int value => tag "Int" (.int value.toInt)
  | float value => tag "Float" (.float value)
  | bool value => tag "Bool" (.bool value)
  | char value => tag "Char" (.str (String.ofList [value]))
  | str content => tag "Str" (.str content)
  | array elements elementType =>
    tag "Array" (.obj [("elements", ids elements), ("element_type", opt ofTy elementType)])
  | struct name fields =>
    tag "Struct" (.obj [("name", .str name), ("fields", .arr (fields.map FieldInit.toJson))])
  | binary op left right =>
    tag "Infix" (.obj [("op", .str op.name), ("left", nat left), ("right", nat right)])
  | unary op operand => tag "Prefix" (.obj [("op", .str op.name), ("operand", nat operand)])
  | update op operand => tag "Postfix" (.obj [("op", .str op.name), ("operand", nat operand)])
  | call callee args => tag "Call" (.obj [("callee", .str callee), ("args", ids args)])
  | index base position => tag "Index" (.obj [("base", nat base), ("index", nat position)])
  | member base name => tag "Member" (.obj [("base", nat base), ("member", .str name)])
  | pointerMember base name =>
    tag "PointerMember" (.obj [("base", nat base), ("member", .str name)])
  | assign target value => tag "Assign" (.obj [("target", nat target), ("value", nat value)])

def Stmt.toJson : Stmt → Json
  | block stmts => tag "Block" (ids stmts)
  | function decl => tag "Function" (.obj [("name", .str decl.name),
      ("params", .arr (decl.params.map Binding.toJson)), ("result", ofTy decl.result),
      ("body", nat decl.body), ("exported", .bool decl.exported)])
  | struct decl => tag "Struct" (.obj [("name", .str decl.name),
      ("fields", .arr (decl.fields.map Binding.toJson)), ("exported", .bool decl.exported)])
  | importing decl => tag "Import" (.obj [("module", .str decl.source),
      ("names", .arr (decl.names.map .str))])
  | letting decl => tag "Let" (.obj [("name", .str decl.name), ("ty", opt ofTy decl.ty),
      ("init", nat decl.init), ("exported", .bool decl.exported)])
  | cond condition thenBranch elseBranch => tag "If" (.obj [("condition", nat condition),
      ("then_branch", nat thenBranch), ("else_branch", opt nat elseBranch)])
  | whileLoop condition body =>
    tag "While" (.obj [("condition", nat condition), ("body", nat body)])
  | forLoop init condition update body => tag "For" (.obj [("init", opt nat init),
      ("condition", nat condition), ("update", opt nat update), ("body", nat body)])
  | ret value => tag "Return" (opt nat value)
  | breakLoop => .str "Break"
  | continueLoop => .str "Continue"
  | expr e => tag "Expr" (nat e)

def Module.toJson (m : Module) : Json :=
  .obj [("name", .str m.name), ("items", ids m.items),
    ("arena", .obj [("exprs", .arr (m.arena.exprs.toList.map Expr.toJson)),
      ("stmts", .arr (m.arena.stmts.toList.map Stmt.toJson))])]

end WasmBackend
