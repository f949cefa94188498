import WasmBackend.Syntax.Validate

/-!
# Building modules

Each call adds one node at the end of its arena and returns the node's id, so ids handed out
earlier stay valid and a finished module refers only to earlier nodes. Ids are words of 32 bits: one
that no longer fits is cut down to them.

A call is about an expression, a statement or an item (`BuilderCall`). The others are these three at
a node of some form.
-/

namespace WasmBackend

/-- How many ids there are for the nodes of one kind. -/
def idSpace : Nat := 0x100000000

namespace Module

/-- Adds an expression. -/
def addExpr (m : Module) (e : Expr) : ExprId × Module :=
  (m.arena.exprs.size % idSpace, { m with arena := m.arena.pushExpr e })

/-- Adds a statement. -/
def addStmt (m : Module) (s : Stmt) : StmtId × Module :=
  (m.arena.stmts.size % idSpace, { m with arena := m.arena.pushStmt s })

/-- Adds an existing statement to the top level. -/
def addItem (m : Module) (id : StmtId) : StmtId × Module :=
  (id, { m with items := m.items ++ [id] })

end Module

/-- What a builder is asked for. -/
inductive BuilderCall where
  | expr (e : Expr)
  | stmt (s : Stmt)
  | item (id : StmtId)
  deriving DecidableEq

namespace BuilderCall

def ident (name : String) : BuilderCall := expr (.ident name)
def int (value : Int64) : BuilderCall := expr (.int value)
def float (value : Binary64) : BuilderCall := expr (.float value)
def bool (value : Bool) : BuilderCall := expr (.bool value)
def char (value : Char) : BuilderCall := expr (.char value)
def string (content : String) : BuilderCall := expr (.str content)
def array (elements : List ExprId) (ty : Option Ty) : BuilderCall := expr (.array elements ty)
def structLit (name : String) (fields : List (String × ExprId)) : BuilderCall :=
  expr (.struct name (fields.map fun f => ⟨f.1, f.2⟩))
def binary (op : BinaryOp) (left right : ExprId) : BuilderCall := expr (.binary op left right)
def unary (op : PrefixOp) (operand : ExprId) : BuilderCall := expr (.unary op operand)
def update (op : PostfixOp) (operand : ExprId) : BuilderCall := expr (.update op operand)
def call (callee : String) (args : List ExprId) : BuilderCall := expr (.call callee args)
def index (base position : ExprId) : BuilderCall := expr (.index base position)
def member (base : ExprId) (name : String) : BuilderCall := expr (.member base name)
def pointerMember (base : ExprId) (name : String) : BuilderCall := expr (.pointerMember base name)
def assign (target value : ExprId) : BuilderCall := expr (.assign target value)

def block (stmts : List StmtId) : BuilderCall := stmt (.block stmts)
def exprStmt (e : ExprId) : BuilderCall := stmt (.expr e)
def ret (value : Option ExprId) : BuilderCall := stmt (.ret value)
def breakLoop : BuilderCall := stmt .breakLoop
def continueLoop : BuilderCall := stmt .continueLoop
def letting (name : String) (ty : Option Ty) (init : ExprId) (exported : Bool) : BuilderCall :=
  stmt (.letting { name, ty, init, exported })
def cond (condition : ExprId) (thenBranch : StmtId) (elseBranch : Option StmtId) : BuilderCall :=
  stmt (.cond condition thenBranch elseBranch)
def whileLoop (condition : ExprId) (body : StmtId) : BuilderCall := stmt (.whileLoop condition body)
def forLoop (init : Option StmtId) (condition : ExprId) (update : Option ExprId) (body : StmtId) :
    BuilderCall :=
  stmt (.forLoop init condition update body)
def function (name : String) (params : List (String × Ty)) (result : Ty) (body : StmtId)
    (exported : Bool) : BuilderCall :=
  stmt (.function { name, params := params.map fun p => ⟨p.1, p.2⟩, result, body, exported })
def structDecl (name : String) (fields : List (String × Ty)) (exported : Bool) : BuilderCall :=
  stmt (.struct { name, fields := fields.map fun f => ⟨f.1, f.2⟩, exported })
def importing (source : String) (names : List String) : BuilderCall :=
  stmt (.importing { source, names })

/-- The ids that a call is given. -/
def args : BuilderCall → List NodeRef
  | expr e => e.children.map .expr
  | stmt s => s.stmtChildren.map .stmt ++ s.exprChildren.map .expr
  | item id => [.stmt id]

end BuilderCall

/-- Answers a call with an id. -/
def Module.perform (m : Module) : BuilderCall → NodeRef × Module
  | .expr e => (.expr (m.addExpr e).1, (m.addExpr e).2)
  | .stmt s => (.stmt (m.addStmt s).1, (m.addStmt s).2)
  | .item id => (.stmt (m.addItem id).1, (m.addItem id).2)

end WasmBackend
