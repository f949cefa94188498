import WasmBackend.Proofs.Lists
import WasmBackend.Syntax.Validate

/-!
# Expressions refer to earlier expressions

In a validated module the operands of an expression are earlier nodes. A recursion by descending
index then never meets its guard: `descend` at a node is its step on the values at all nodes.
`Module.validate` accepts exactly the modules in which every reference goes to an earlier node
(`Module.validate_ok_iff`).

What stands inside what is said for expressions by `Arena.Within` and for statements by
`Arena.Inside`. What the nodes mean is left out: only references are looked at.
-/

namespace WasmBackend

/-- Every operand of an expression is an earlier node. -/
def Arena.Descending (arena : Arena) : Prop :=
  ∀ id e, arena.expr? id = some e → ∀ child ∈ e.children, child < id

/-- The expression is the other one or inside it. -/
inductive Arena.Within (arena : Arena) (inner : ExprId) : ExprId → Prop
  | refl : Within arena inner inner
  | operand {id child : ExprId} {e : Expr} (he : arena.expr? id = some e)
      (hchild : child ∈ e.children) (h : Within arena inner child) : Within arena inner id

theorem Arena.Within.trans {arena : Arena} {a b c : ExprId} (h : arena.Within a b)
    (h' : arena.Within b c) : arena.Within a c := by
  induction h' with
  | refl => exact h
  | operand he hchild _ ih => exact .operand he hchild ih

/-- The first statement is the second, or stands somewhere in it. -/
inductive Arena.Inside (arena : Arena) (target : StmtId) : StmtId → Prop
  | self : Inside arena target target
  | child {id child : StmtId} {s : Stmt} (hid : arena.stmt? id = some s)
      (hchild : child ∈ s.stmtChildren) (hinside : Inside arena target child) :
      Inside arena target id

theorem Arena.Inside.trans {arena : Arena} {a b c : StmtId} (h : arena.Inside a b)
    (h' : arena.Inside b c) : arena.Inside a c := by
  induction h' with
  | self => exact h
  | child hid hchild _ ih => exact .child hid hchild ih

/-- Induction along a recursion by descending id, for a property that may depend on the id. -/
theorem descend_induction {α : Type} {P : Nat → α → Prop} {guard : Nat → Nat → α}
    {step : Nat → (Nat → α) → α} (hguard : ∀ parent child, P child (guard parent child))
    (hstep : ∀ id sub, (∀ child, P child (sub child)) → P id (step id sub)) (id : Nat) :
    P id (descend guard step id) := by
  induction id using Nat.strongRecOn with
  | ind id ih =>
    rw [descend_eq]
    apply hstep
    intro child
    split
    · next hlt => exact ih child hlt
    · exact hguard id child

/-- The same for two recursions side by side. Where the guards are not related (`C`), steps can
count only on smaller ids. -/
theorem descend_both {α β : Type} {R : Nat → α → β → Prop} {C : Prop} {guard : Nat → Nat → α}
    {guard' : Nat → Nat → β} {step : Nat → (Nat → α) → α} {step' : Nat → (Nat → β) → β}
    (hguard : C → ∀ parent child, R child (guard parent child) (guard' parent child))
    (hstep : ∀ id sub sub', (∀ child, child < id ∨ C → R child (sub child) (sub' child)) →
      R id (step id sub) (step' id sub')) (id : Nat) :
    R id (descend guard step id) (descend guard' step' id) := by
  induction id using Nat.strongRecOn with
  | ind id ih =>
    rw [descend_eq, descend_eq]
    refine hstep id _ _ fun child hchild => ?_
    by_cases hlt : child < id
    · simpa only [hlt, if_true] using ih child hlt
    · simpa only [hlt, if_false] using hguard (hchild.resolve_left hlt) id child

/-! ## Well-referenced modules -/

/-- Statements refer to earlier statements and to expressions that exist, expressions to earlier
expressions. -/
structure Arena.WellReferenced (arena : Arena) : Prop where
  stmts : ∀ id s, arena.stmt? id = some s → ∀ child ∈ s.stmtChildren, child < id
  leaves : ∀ id s, arena.stmt? id = some s → ∀ child ∈ s.exprChildren, child < arena.exprs.size
  exprs : arena.Descending

theorem Arena.Inside.le {arena : Arena} (harena : arena.WellReferenced) {target id : StmtId}
    (h : arena.Inside target id) : target ≤ id := by
  induction h with
  | self => exact Nat.le_refl _
  | child hs hchild _ ih =>
    exact Nat.le_of_lt (Nat.lt_of_le_of_lt ih (harena.stmts _ _ hs _ hchild))

/-- In addition, the items are statements that exist. -/
structure Module.WellReferenced (m : Module) : Prop where
  items : ∀ id ∈ m.items, id < m.arena.stmts.size
  arena : m.arena.WellReferenced

theorem firstIndexed?_eq_none_iff {α β : Type} {f : Nat → α → Option β} {i : Nat} {l : List α} :
    firstIndexed? f i l = none ↔ ∀ k a, l[k]? = some a → f (i + k) a = none := by
  induction l generalizing i with
  | nil => simp [firstIndexed?]
  | cons first rest ih =>
    have hcons : (∀ k a, (first :: rest)[k]? = some a → f (i + k) a = none) ↔
        f i first = none ∧ ∀ k a, rest[k]? = some a → f (i + 1 + k) a = none := by
      refine ⟨fun h => ⟨h 0 first rfl, fun k a ha => ?_⟩, fun h k a ha => ?_⟩
      · rw [Nat.add_assoc, Nat.add_comm 1 k]
        exact h (k + 1) a ha
      · cases k with
        | zero => exact Option.some.inj ha ▸ h.1
        | succ k =>
          rw [Nat.add_comm k 1, ← Nat.add_assoc]
          exact h.2 k a ha
    rw [hcons, ← ih]
    cases hfirst : f i first <;> simp [firstIndexed?, hfirst]

theorem Arena.danglingStmt?_eq_none_iff {arena : Arena} {id : StmtId} {s : Stmt} :
    arena.danglingStmt? id s = none ↔
      (∀ child ∈ s.stmtChildren, child < id) ∧
        ∀ child ∈ s.exprChildren, child < arena.exprs.size := by
  unfold danglingStmt?
  cases hfind : s.stmtChildren.find? (fun child => id ≤ child) with
  | some child =>
    have hmem := List.mem_of_find?_eq_some hfind
    have hle := List.find?_some hfind
    simp only [reduceCtorEq, false_iff, not_and]
    intro hall
    exact absurd (hall child hmem) (by simpa using hle)
  | none =>
    rw [List.find?_eq_none] at hfind
    simp only [Option.map_eq_none_iff, List.find?_eq_none, decide_eq_true_eq, Nat.not_le] at hfind ⊢
    exact ⟨fun h => ⟨hfind, h⟩, fun h => h.2⟩

theorem Arena.danglingExpr?_eq_none_iff {id : ExprId} {e : Expr} :
    danglingExpr? id e = none ↔ ∀ child ∈ e.children, child < id := by
  simp [danglingExpr?]

/-- Validation accepts a module exactly if every reference of it goes to an earlier node. -/
theorem Module.validate_ok_iff {m : Module} : m.validate = .ok () ↔ m.WellReferenced := by
  have hvalidate : m.validate = .ok () ↔ m.dangling? = none := by
    unfold validate
    cases m.dangling? <;> simp
  have hdangling : m.dangling? = none ↔
      m.items.find? (fun item => m.arena.stmts.size ≤ item) = none ∧
        firstIndexed? m.arena.danglingStmt? 0 m.arena.stmts.toList = none ∧
          firstIndexed? Arena.danglingExpr? 0 m.arena.exprs.toList = none := by
    unfold dangling?
    cases m.items.find? (fun item => m.arena.stmts.size ≤ item) with
    | some item => simp
    | none => cases firstIndexed? m.arena.danglingStmt? 0 m.arena.stmts.toList <;> simp
  rw [hvalidate, hdangling, firstIndexed?_eq_none_iff, firstIndexed?_eq_none_iff]
  simp only [Nat.zero_add, Arena.danglingStmt?_eq_none_iff, Arena.danglingExpr?_eq_none_iff,
    List.find?_eq_none, decide_eq_true_eq, Nat.not_le, Array.getElem?_toList]
  constructor
  · rintro ⟨hitems, hstmts, hexprs⟩
    exact ⟨hitems, fun id s hs => (hstmts id s hs).1, fun id s hs => (hstmts id s hs).2, hexprs⟩
  · rintro ⟨hitems, hstmts, hleaves, hexprs⟩
    exact ⟨hitems, fun id s hs => ⟨hstmts id s hs, hleaves id s hs⟩, hexprs⟩

theorem Module.descending_of_validate {m : Module} (h : m.validate = .ok ()) :
    m.arena.Descending :=
  (validate_ok_iff.mp h).arena.exprs

end WasmBackend
