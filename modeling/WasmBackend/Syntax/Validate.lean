import WasmBackend.Syntax.Tree

/-!
# Well-formed modules

A module is well formed when every reference goes to an earlier node: an item to a statement that
exists, a statement to smaller statements and to expressions that exist, an expression to smaller
expressions. `Module.validate` reports the first reference that does not, looking at the items
first, then at the statements in order, then at the expressions in order.
-/

namespace WasmBackend

/-- A reference to a node. -/
inductive NodeRef where
  | stmt (id : StmtId)
  | expr (id : ExprId)
  deriving DecidableEq, Repr

def NodeRef.text : NodeRef → String
  | .stmt id => "Stmt(StmtId(" ++ toString id ++ "))"
  | .expr id => "Expr(ExprId(" ++ toString id ++ "))"

/-- Where a reference stands. -/
inductive NodeParent where
  | item
  | stmt (id : StmtId)
  | expr (id : ExprId)
  deriving DecidableEq, Repr

def NodeParent.text : NodeParent → String
  | .item => "module item"
  | .stmt id => "statement " ++ toString id
  | .expr id => "expression " ++ toString id

/-- A reference to a node that is not an earlier one. -/
structure DanglingNode where
  parent : NodeParent
  child : NodeRef
  deriving DecidableEq, Repr

def DanglingNode.message (d : DanglingNode) : String :=
  d.parent.text ++ " refers to " ++ d.child.text ++ ", which is not an earlier node of the arena"

namespace Arena

/-- The first dangling reference of statement `id`. -/
def danglingStmt? (arena : Arena) (id : StmtId) (s : Stmt) : Option DanglingNode :=
  match s.stmtChildren.find? (fun child => id ≤ child) with
  | some child => some ⟨.stmt id, .stmt child⟩
  | none =>
    (s.exprChildren.find? (fun child => arena.exprs.size ≤ child)).map fun child =>
      ⟨.stmt id, .expr child⟩

/-- The first dangling reference of expression `id`. -/
def danglingExpr? (id : ExprId) (e : Expr) : Option DanglingNode :=
  (e.children.find? (fun child => id ≤ child)).map fun child => ⟨.expr id, .expr child⟩

end Arena

/-- The first answer along a list that starts at index `i`. -/
def firstIndexed? {α β : Type} (f : Nat → α → Option β) (i : Nat) : List α → Option β
  | [] => none
  | a :: rest =>
    match f i a with
    | some b => some b
    | none => firstIndexed? f (i + 1) rest

namespace Module

/-- The first dangling reference of a module. -/
def dangling? (m : Module) : Option DanglingNode :=
  match m.items.find? (fun item => m.arena.stmts.size ≤ item) with
  | some item => some ⟨.item, .stmt item⟩
  | none =>
    match firstIndexed? m.arena.danglingStmt? 0 m.arena.stmts.toList with
    | some d => some d
    | none => firstIndexed? Arena.danglingExpr? 0 m.arena.exprs.toList

def validate (m : Module) : Except DanglingNode Unit :=
  match m.dangling? with
  | some d => .error d
  | none => .ok ()

end Module

end WasmBackend
