import WasmBackend.Syntax.Validate

/-!
# Walking a module

A `Visitor` is asked at every node what to do there, and is handed the walk of the node's children
to run when it sees fit: before, after, or not at all. The default runs it and does nothing else.

Children are visited in evaluation order; a `for` goes initialiser, condition, update, body.
-/

namespace WasmBackend

structure Visitor (m : Type → Type) where
  stmt : StmtId → Stmt → m Unit → m Unit := fun _ _ walk => walk
  expr : ExprId → Expr → m Unit → m Unit := fun _ _ walk => walk
  dangling : DanglingNode → m Unit

namespace Visitor

variable {m : Type → Type} [Monad m]

/-- Visits an expression and, through the visitor, everything below it. -/
def visitExpr (v : Visitor m) (arena : Arena) : ExprId → m Unit :=
  descend (fun parent child => v.dangling ⟨.expr parent, .expr child⟩) fun id visit =>
    match arena.expr? id with
    | none => v.dangling ⟨.expr id, .expr id⟩
    | some e => v.expr id e (e.children.forM visit)

/-- Visits a statement and, through the visitor, everything below it. -/
def visitStmt (v : Visitor m) (arena : Arena) : StmtId → m Unit :=
  descend (fun parent child => v.dangling ⟨.stmt parent, .stmt child⟩) fun id visit =>
    match arena.stmt? id with
    | none => v.dangling ⟨.stmt id, .stmt id⟩
    | some s => v.stmt id s <|
      match s with
      | .block stmts => stmts.forM visit
      | .function decl => visit decl.body
      | .letting decl => v.visitExpr arena decl.init
      | .cond condition thenBranch elseBranch => do
        v.visitExpr arena condition
        visit thenBranch
        elseBranch.forM visit
      | .whileLoop condition body => do
        v.visitExpr arena condition
        visit body
      | .forLoop init condition update body => do
        init.forM visit
        v.visitExpr arena condition
        update.forM (v.visitExpr arena)
        visit body
      | .ret value => value.forM (v.visitExpr arena)
      | .expr e => v.visitExpr arena e
      | _ => pure ()

/-- Visits the items of a module in order. -/
def visitModule (v : Visitor m) (module : Module) : m Unit :=
  module.items.forM (v.visitStmt module.arena)

end Visitor

/-! ## Tracing -/

/-- Notes every node on entering it, and stops with the note that would exceed the limit. -/
def tracer (limit : Option Nat) : Visitor (EStateM String (Array String)) :=
  let note (text : String) : EStateM String (Array String) Unit := fun notes =>
    if limit.all (fun n => notes.size < n) then .ok () (notes.push text) else .error text notes
  { stmt := fun id s walk => do note ("s" ++ toString id ++ " " ++ s.kindName); walk
    expr := fun id e walk => do note ("e" ++ toString id ++ " " ++ e.kindName); walk
    dangling := fun d => throw d.message }

/-- The nodes of a module in the order of the walk, and the one that hit the limit. -/
def Module.trace (m : Module) (limit : Option Nat) : List String × Option String :=
  match (tracer limit).visitModule m #[] with
  | .ok _ notes => (notes.toList, none)
  | .error stopped notes => (notes.toList, some stopped)

end WasmBackend
