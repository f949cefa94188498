import WasmBackend.Proofs.Arena
import WasmBackend.Syntax.Walk

/-!
# What validation promises

What it is good for that every reference goes to an earlier node is said by comparing two arenas:
`a.Extends b` if `b` has all nodes of `a` and any others besides. A traversal of `a` that gives the
same on every such `b` has looked at nothing that `a` does not have.

Every traversal is a recursion by descending id, and one induction serves them all
(`descend_related`): two recursions whose steps relate if the values at smaller ids do relate
everywhere, whatever their guards answer. Walks come first. Two visitors that do related things at
every node of a well-referenced arena do related things on the whole walk
(`Visitor.visitStmt_related`), and neither is ever asked about a dangling reference.
-/

namespace WasmBackend

/-! ## Larger arenas -/

namespace Arena

variable {a b : Arena}

/-- The second arena has every node of the first, under the same id. -/
structure Extends (a b : Arena) : Prop where
  exprs : ∀ id e, a.expr? id = some e → b.expr? id = some e
  stmts : ∀ id s, a.stmt? id = some s → b.stmt? id = some s

theorem Extends.pushExpr (a : Arena) (e : Expr) : a.Extends (a.pushExpr e) := by
  refine ⟨fun id e' h => ?_, fun _ _ h => h⟩
  obtain ⟨hid, rfl⟩ := Array.getElem?_eq_some_iff.mp h
  simp [Arena.pushExpr, expr?, Array.getElem?_push, Nat.ne_of_lt hid, hid]

theorem exists_expr {id : ExprId} (h : id < a.exprs.size) : ∃ e, a.expr? id = some e :=
  ⟨a.exprs[id], Array.getElem?_eq_getElem h⟩

theorem lt_of_expr {id : ExprId} {e : Expr} (h : a.expr? id = some e) : id < a.exprs.size :=
  (Array.getElem?_eq_some_iff.mp h).1

theorem exists_stmt {id : StmtId} (h : id < a.stmts.size) : ∃ s, a.stmt? id = some s :=
  ⟨a.stmts[id], Array.getElem?_eq_getElem h⟩

end Arena

/-! ## Recursions by descending id -/

/-- Steps that only look at smaller ids never meet the guard. -/
theorem descend_related {α : Type} {R : α → α → Prop} {n : Nat} {guard guard' : Nat → Nat → α}
    {step step' : Nat → (Nat → α) → α}
    (h : ∀ id < n, ∀ sub sub', (∀ child < id, R (sub child) (sub' child)) →
      R (step id sub) (step' id sub')) {id : Nat} (hid : id < n) :
    R (descend guard step id) (descend guard' step' id) := by
  induction id using Nat.strongRecOn with
  | ind id ih =>
    rw [descend_eq, descend_eq]
    refine h id hid _ _ fun child hchild => ?_
    simp only [hchild, ↓reduceIte]
    exact ih child hchild (Nat.lt_trans hchild hid)

/-! ## Walks -/

/-- A relation between actions that goes along with doing nothing and with doing one thing after
another. -/
structure Sequential {M : Type → Type} [Monad M] (R : M Unit → M Unit → Prop) : Prop where
  pure : R (Pure.pure ()) (Pure.pure ())
  andThen : ∀ {x x' y y' : M Unit}, R x x' → R y y' → R (x >>= fun _ => y) (x' >>= fun _ => y')

namespace Sequential

variable {M : Type → Type} [Monad M] {R : M Unit → M Unit → Prop} (hR : Sequential R)

include hR

theorem forM {α : Type} {k k' : α → M Unit} {l : List α} (h : ∀ x ∈ l, R (k x) (k' x)) :
    R (l.forM k) (l.forM k') := by
  induction l with
  | nil => exact hR.pure
  | cons x rest ih =>
    obtain ⟨hx, hrest⟩ := List.forall_mem_cons.mp h
    exact hR.andThen hx (ih hrest)

theorem optionForM {α : Type} {k k' : α → M Unit} {o : Option α} (h : ∀ x ∈ o, R (k x) (k' x)) :
    R (o.forM k) (o.forM k') := by
  cases o with
  | none => exact hR.pure
  | some x => exact h x rfl

end Sequential

namespace Visitor

variable {M : Type → Type} [Monad M] {R : M Unit → M Unit → Prop} {a b : Arena}

/-- At every node of the arena, the two visitors do related things, given related walks of its
children. What they do with dangling references does not count. -/
structure Related (R : M Unit → M Unit → Prop) (a : Arena) (v v' : Visitor M) : Prop where
  stmt : ∀ id s walk walk', a.stmt? id = some s → R walk walk' →
    R (v.stmt id s walk) (v'.stmt id s walk')
  expr : ∀ id e walk walk', a.expr? id = some e → R walk walk' →
    R (v.expr id e walk) (v'.expr id e walk')

variable (hR : Sequential R) {v v' : Visitor M} (hv : Related R a v v') (ha : a.WellReferenced)
variable (hab : a.Extends b)

include hR hv ha hab

theorem visitExpr_related {id : ExprId} (hid : id < a.exprs.size) :
    R (v.visitExpr a id) (v'.visitExpr b id) := by
  refine descend_related (fun id hid sub sub' hsub => ?_) hid
  obtain ⟨e, he⟩ := Arena.exists_expr hid
  simp only [he, hab.exprs id e he]
  refine hv.expr id e _ _ he (hR.forM fun child hchild => ?_)
  exact hsub child (ha.exprs id e he child hchild)

/-- What visitors do at single nodes carries over to the walk of a statement. -/
theorem visitStmt_related {id : StmtId} (hid : id < a.stmts.size) :
    R (v.visitStmt a id) (v'.visitStmt b id) := by
  refine descend_related (fun id hid sub sub' hsub => ?_) hid
  obtain ⟨s, hs⟩ := Arena.exists_stmt hid
  simp only [hs, hab.stmts id s hs]
  have hchild : ∀ child ∈ s.stmtChildren, R (sub child) (sub' child) :=
    fun child hchild => hsub child (ha.stmts id s hs child hchild)
  have hleaf : ∀ child ∈ s.exprChildren, R (v.visitExpr a child) (v'.visitExpr b child) :=
    fun child hchild => visitExpr_related hR hv ha hab (ha.leaves id s hs child hchild)
  refine hv.stmt id s _ _ hs ?_
  cases s with
  | block stmts => exact hR.forM hchild
  | function decl => exact hchild _ (by simp)
  | letting decl => exact hleaf _ (by simp)
  | cond condition thenBranch elseBranch =>
    refine hR.andThen (hleaf _ (by simp)) ?_
    refine hR.andThen (hchild _ (by simp)) ?_
    exact hR.optionForM fun c hc => hchild c (by simp_all)
  | whileLoop condition body =>
    refine hR.andThen (hleaf _ (by simp)) ?_
    exact hchild _ (by simp)
  | forLoop init condition update body =>
    refine hR.andThen (hR.optionForM fun c hc => hchild c (by simp_all)) ?_
    refine hR.andThen (hleaf _ (by simp)) ?_
    refine hR.andThen (hR.optionForM fun c hc => hleaf c (by simp_all)) ?_
    exact hchild _ (by simp)
  | ret value => exact hR.optionForM fun c hc => hleaf c (by simp_all)
  | expr e => exact hleaf _ (by simp)
  | _ => exact hR.pure

end Visitor

end WasmBackend
