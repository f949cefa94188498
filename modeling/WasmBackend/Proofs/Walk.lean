import WasmBackend.Proofs.Arena
import WasmBackend.Symbols.Extract

/-!
# Where expressions stand

A walk goes through statements only to get at the expressions in them. So the walk of a statement is
a list of visits, one after the other (`Visitor.visitStmt_eq`), and which expressions are visited
can be read off the tree (`Module.root_mem_visits`). What is shown of walks elsewhere is shown of
that list, and statements are done with.

An array literal is laid out at a type that its surroundings may pass down to it: a `let` passes
down the elements of its declared type, an array literal the elements of its own element type, and
nothing else passes down anything. `Module.Stands` says which expressions a module reaches, and with
what passed down to them.

The walk below an expression is left to the visitor, which may run it or not; here only its
induction is stated (`Visitor.visitExpr_induction`).
-/

namespace WasmBackend

/-- The element type that a statement passes down to the expressions in it. -/
def Stmt.passes : Stmt → Option Ty
  | letting decl => decl.ty.bind Ty.element?
  | _ => none

/-- The element type that an expression passes down to those in it, if it was passed this one. -/
def Expr.passes (arena : Arena) (passed : Option Ty) : Expr → Option Ty
  | array elements stated => (arrayElementType arena stated passed elements).element?
  | _ => none

/-- An expression that stands directly in a statement, and what is passed down to it. -/
structure Root where
  expr : ExprId
  passed : Option Ty

/-! ## Visits -/

/-- What a walk comes to: an expression, or a reference that leads nowhere. -/
inductive Visit
  | root (r : Root)
  | dangling (node : DanglingNode)

/-- The visits at a statement, given those at the statements in it. -/
def Stmt.visits (visits : StmtId → List Visit) : Stmt → List Visit
  | block stmts => stmts.flatMap visits
  | function decl => visits decl.body
  | letting decl => [.root ⟨decl.init, decl.ty.bind Ty.element?⟩]
  | cond condition thenBranch elseBranch =>
    .root ⟨condition, none⟩ :: (visits thenBranch ++ elseBranch.toList.flatMap visits)
  | whileLoop condition body => .root ⟨condition, none⟩ :: visits body
  | forLoop init condition update body =>
    init.toList.flatMap visits ++ .root ⟨condition, none⟩ ::
      (update.toList.map (fun e => .root ⟨e, none⟩) ++ visits body)
  | ret value => value.toList.map fun e => .root ⟨e, none⟩
  | expr e => [.root ⟨e, none⟩]
  | _ => []

theorem Stmt.mem_visits {visits : StmtId → List Visit} {s : Stmt} {v : Visit} :
    v ∈ s.visits visits ↔ (∃ e ∈ s.exprChildren, v = .root ⟨e, s.passes⟩) ∨
      ∃ child ∈ s.stmtChildren, v ∈ visits child := by
  cases s with
  | forLoop init condition update body =>
    simp only [Stmt.visits, exprChildren, stmtChildren, passes, List.mem_append, List.mem_cons,
      List.mem_flatMap, List.mem_map, List.not_mem_nil, or_false]
    grind
  | _ => simp [Stmt.visits, exprChildren, stmtChildren, passes, eq_comm]

/-- The visits of a walk that starts at a statement. -/
def Arena.visits (arena : Arena) : StmtId → List Visit :=
  descend (fun parent child => [.dangling ⟨.stmt parent, .stmt child⟩]) fun id visits =>
    match arena.stmt? id with
    | none => [.dangling ⟨.stmt id, .stmt id⟩]
    | some s => s.visits visits

/-- The visits of a walk over a module. -/
def Module.visits (m : Module) : List Visit := m.items.flatMap m.arena.visits

namespace Visitor

variable {M : Type → Type} [Monad M] (v : Visitor M) (arena : Arena)

theorem visitExpr_eq {id : ExprId} {e : Expr} (hid : arena.expr? id = some e) :
    v.visitExpr arena id = v.expr id e (e.children.forM fun child =>
      if child < id then v.visitExpr arena child else v.dangling ⟨.expr id, .expr child⟩) := by
  rw [visitExpr, descend_eq, hid]

/-- What holds of visiting an expression if it holds of visiting those in it. -/
theorem visitExpr_induction {P : ExprId → M Unit → Prop}
    (hdangling : ∀ id node, P id (v.dangling node))
    (hexpr : ∀ id e visit, arena.expr? id = some e → (∀ child, P child (visit child)) →
      P id (v.expr id e (e.children.forM visit)))
    (id : ExprId) : P id (v.visitExpr arena id) := by
  refine descend_induction (P := P) (fun _ _ => hdangling _ _) ?_ id
  intro id visit hvisit
  cases he : arena.expr? id with
  | none => exact hdangling id _
  | some e => exact hexpr id e visit he hvisit

/-- Pays a visit, where `announce` says what is done with a type that is passed down. -/
def perform (announce : ExprId → Ty → M Unit) : Visit → M Unit
  | .root r => do
    r.passed.forM (announce r.expr)
    v.visitExpr arena r.expr
  | .dangling node => v.dangling node

variable [LawfulMonad M]

theorem forM_flatMap {α β : Type} (l : List α) (f : α → List β) (k : β → M Unit) :
    forM (l.flatMap f) k = forM l fun a => forM (f a) k := by
  induction l with
  | nil => rfl
  | cons a rest ih => rw [List.flatMap_cons, List.forM_append, ih, List.forM_cons]

theorem forM_toList {α : Type} (o : Option α) (k : α → M Unit) : forM o.toList k = forM o k := by
  cases o with
  | none => rfl
  | some a => exact bind_pure_unit

variable {v arena} {announce : ExprId → Ty → M Unit}
  (hletting : ∀ id decl walk, v.stmt id (.letting decl) walk =
    (decl.ty.bind Ty.element?).forM (announce decl.init) >>= fun _ => walk)
  (hother : ∀ id s walk, (∀ decl, s ≠ .letting decl) → v.stmt id s walk = walk)
include hletting hother

/-- Walking a statement is paying its visits. -/
theorem visitStmt_eq (id : StmtId) :
    v.visitStmt arena id = (arena.visits id).forM (v.perform arena announce) := by
  refine descend_both (C := True)
    (R := fun _ x (l : List Visit) => x = l.forM (v.perform arena announce))
    (fun _ _ _ => bind_pure_unit.symm) ?_ id
  intro id visit visits hvisit
  obtain rfl : visit = fun child => (visits child).forM (v.perform arena announce) :=
    funext fun child => hvisit child (.inr trivial)
  cases arena.stmt? id with
  | none => exact bind_pure_unit.symm
  | some s =>
    cases s with
    | letting decl =>
      dsimp only
      rw [hletting]
      exact bind_pure_unit.symm
    | _ =>
      dsimp only
      rw [hother _ _ _ (by simp)]
      simp [Stmt.visits, forM_flatMap, forM_toList, perform]

theorem visitModule_eq (m : Module) :
    v.visitModule m = m.visits.forM (v.perform m.arena announce) := by
  have hstmts : v.visitStmt m.arena = fun id => forM (m.arena.visits id) _ :=
    funext (visitStmt_eq hletting hother)
  unfold visitModule
  rw [hstmts]
  exact (forM_flatMap _ _ _).symm

end Visitor

/-! ## Statements inside statements -/

/-- In a walk that meets no dangling reference, the expressions come from the statements inside. -/
theorem Arena.root_mem_visits {arena : Arena} {id : StmtId} {r : Root}
    (hall : ∀ node, .dangling node ∉ arena.visits id) : .root r ∈ arena.visits id ↔
      ∃ target s, arena.Inside target id ∧ arena.stmt? target = some s ∧
        r.expr ∈ s.exprChildren ∧ r.passed = s.passes := by
  induction id using Nat.strongRecOn with
  | ind id ih =>
    unfold visits at hall ⊢
    rw [descend_eq, ← visits] at hall ⊢
    cases hid : arena.stmt? id with
    | none => exact absurd (by simp [hid]) (hall ⟨.stmt id, .stmt id⟩)
    | some s =>
      simp only [hid, Stmt.mem_visits, not_or, not_exists, not_and] at hall ⊢
      -- A child that comes later would be a dangling reference.
      have hlt (child : StmtId) (hchild : child ∈ s.stmtChildren) : child < id := by
        by_contra hnot
        exact (hall ⟨.stmt id, .stmt child⟩).2 child hchild (by simp [hnot])
      constructor
      · rintro (⟨e, he, hr⟩ | ⟨child, hchild, hmem⟩)
        · cases hr
          exact ⟨id, s, .self, hid, he, rfl⟩
        · rw [if_pos (hlt child hchild)] at hmem
          obtain ⟨target, t, hinside, ht⟩ := (ih child (hlt child hchild) fun node hnode =>
            (hall node).2 child hchild (by rwa [if_pos (hlt child hchild)])).mp hmem
          exact ⟨target, t, .child hid hchild hinside, ht⟩
      · rintro ⟨target, t, hinside, ht, he, hpassed⟩
        cases hinside with
        | self =>
          cases hid.symm.trans ht
          exact .inl ⟨r.expr, he, by rw [← hpassed]⟩
        | child hid' hchild hinside =>
          cases hid.symm.trans hid'
          refine .inr ⟨_, hchild, ?_⟩
          rw [if_pos (hlt _ hchild)]
          refine (ih _ (hlt _ hchild) fun node hnode => ?_).mpr
            ⟨target, t, hinside, ht, he, hpassed⟩
          exact (hall node).2 _ hchild (by rwa [if_pos (hlt _ hchild)])

namespace Module

variable {m : Module}

/-- The statement stands somewhere in the module. -/
def Contains (m : Module) (target : StmtId) : Prop := ∃ item ∈ m.items, m.arena.Inside target item

theorem root_mem_visits (hall : ∀ node, .dangling node ∉ m.visits) {r : Root} :
    .root r ∈ m.visits ↔ ∃ id s, m.Contains id ∧ m.arena.stmt? id = some s ∧
      r.expr ∈ s.exprChildren ∧ r.passed = s.passes := by
  have hiff (item : StmtId) (hitem : item ∈ m.items) := m.arena.root_mem_visits (r := r)
    fun node hnode => hall node (List.mem_flatMap.mpr ⟨item, hitem, hnode⟩)
  constructor
  · intro hmem
    obtain ⟨item, hitem, hmem⟩ := List.mem_flatMap.mp hmem
    obtain ⟨id, s, hinside, hid⟩ := (hiff item hitem).mp hmem
    exact ⟨id, s, ⟨item, hitem, hinside⟩, hid⟩
  · rintro ⟨id, s, ⟨item, hitem, hinside⟩, hid⟩
    exact List.mem_flatMap.mpr ⟨item, hitem, (hiff item hitem).mpr ⟨id, s, hinside, hid⟩⟩

theorem Contains.child {id child : StmtId} {s : Stmt} (h : m.Contains id)
    (hid : m.arena.stmt? id = some s) (hchild : child ∈ s.stmtChildren) : m.Contains child := by
  obtain ⟨item, hitem, hinside⟩ := h
  exact ⟨item, hitem, Arena.Inside.trans (.child hid hchild .self) hinside⟩

theorem Contains.item {id : StmtId} (h : id ∈ m.items) : m.Contains id := ⟨id, h, .self⟩

theorem mem_itemStmts {id : StmtId} {s : Stmt} :
    (id, s) ∈ m.itemStmts ↔ id ∈ m.items ∧ m.arena.stmt? id = some s := by
  simp only [itemStmts, List.mem_filterMap, Option.map_eq_some_iff]
  constructor
  · rintro ⟨item, hitem, _, hs, heq⟩
    cases heq
    exact ⟨hitem, hs⟩
  · rintro ⟨hid, hs⟩
    exact ⟨id, hid, s, hs, rfl⟩

theorem exists_item_of_letDecl {decl : LetDecl} (h : decl ∈ m.letDecls) :
    ∃ id ∈ m.items, m.arena.stmt? id = some (.letting decl) := by
  obtain ⟨⟨id, s⟩, hitem, hs⟩ := List.mem_filterMap.mp h
  cases s <;> cases hs
  obtain ⟨hid, hstmt⟩ := mem_itemStmts.mp hitem
  exact ⟨id, hid, hstmt⟩

theorem item_of_functionDecl {id : StmtId} {decl : FunctionDecl}
    (h : (id, decl) ∈ m.functionDecls) :
    id ∈ m.items ∧ m.arena.stmt? id = some (.function decl) := by
  obtain ⟨⟨_, s⟩, hitem, hs⟩ := List.mem_filterMap.mp h
  cases s <;> cases hs
  exact mem_itemStmts.mp hitem

/-- The expression stands in the module, and this is passed down to it there. -/
inductive Stands (m : Module) : ExprId → Option Ty → Prop
  | root {id : StmtId} {s : Stmt} {e : ExprId} (hcontains : m.Contains id)
      (hid : m.arena.stmt? id = some s) (he : e ∈ s.exprChildren) : Stands m e s.passes
  | child {id child : ExprId} {e : Expr} {passed : Option Ty} (hstands : Stands m id passed)
      (hid : m.arena.expr? id = some e) (hchild : child ∈ e.children) :
      Stands m child (e.passes m.arena passed)

/-- The expression stands somewhere in the module. -/
def Reaches (m : Module) (id : ExprId) : Prop := ∃ passed, m.Stands id passed

theorem Reaches.child {id child : ExprId} {e : Expr} (h : m.Reaches id)
    (hid : m.arena.expr? id = some e) (hchild : child ∈ e.children) : m.Reaches child := by
  obtain ⟨passed, hstands⟩ := h
  exact ⟨_, hstands.child hid hchild⟩

theorem Contains.reaches {id : StmtId} {s : Stmt} {e : ExprId} (h : m.Contains id)
    (hid : m.arena.stmt? id = some s) (he : e ∈ s.exprChildren) : m.Reaches e :=
  ⟨_, .root h hid he⟩

end Module

end WasmBackend
