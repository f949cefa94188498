import Mathlib.Data.List.Basic
import WasmBackend.Proofs.Lanes

/-!
# Two answers to what lane an expression has

`infer` has no rule for prefix, postfix and member expressions and says that it is not implemented;
`laneOf` has rules for these too. They are separate recursions, and `laneOf` calls `infer` in the
middle of its own, so it is not plain that they agree. They do: `laneOf` answers what `infer`
answers, be it a lane or an error, unless the answer of `infer` is that there is no rule
(`Scope.infer_extendedBy_laneOf`).

An operand without a rule hides what comes after it. In `-x + y` the answer of `infer` is about the
minus sign whatever `y` is, while `laneOf` goes on to `y` and may fail there. So nothing can be said
about `laneOf` where `infer` has no rule, and nothing has to be said about the order of operands
elsewhere: both go from left to right.
-/

namespace WasmBackend

open Compiled

/-! ## Answers that extend answers -/

/-- The second answer is the first, unless the first is that something is not implemented. -/
def Compiled.ExtendedBy {α : Type} (x y : Compiled α) : Prop :=
  (∃ construct, x = .error (.notImplemented construct)) ∨ x = y

namespace Compiled.ExtendedBy

variable {α β : Type} {x y : Compiled α}

theorem refl (x : Compiled α) : ExtendedBy x x := .inr rfl

theorem notImplemented (construct : String) (y : Compiled α) :
    ExtendedBy (.error (.notImplemented construct)) y := .inl ⟨construct, rfl⟩

theorem bind {k k' : α → Compiled β} (h : ExtendedBy x y) (hk : ∀ a, ExtendedBy (k a) (k' a)) :
    ExtendedBy (x >>= k) (y >>= k') := by
  rcases h with ⟨construct, rfl⟩ | rfl
  · exact .notImplemented construct _
  · cases x with
    | ok a => exact hk a
    | error e => exact .refl _

theorem ok {a : α} (h : ExtendedBy x y) (hx : x = .ok a) : y = .ok a := by
  subst hx
  rcases h with ⟨construct, hx⟩ | rfl
  · cases hx
  · rfl

theorem error {e : CompileError} (h : ExtendedBy x y) (hx : x = .error e)
    (he : ∀ construct, e ≠ .notImplemented construct) : y = .error e := by
  subst hx
  rcases h with ⟨construct, hx⟩ | rfl
  · cases hx
    exact absurd rfl (he construct)
  · rfl

end Compiled.ExtendedBy

/-! ## Inference is extended -/

namespace Scope

open Compiled (ExtendedBy)

variable (sc : Scope)

theorem infer_extendedBy_laneOf (id : ExprId) : ExtendedBy (sc.infer id) (sc.laneOf id) := by
  induction id using Nat.strongRecOn with
  | ind id ih =>
    -- The operands of both recursions, behind the same guard.
    have hsub (child : ExprId) : ExtendedBy
        (if child < id then sc.infer child else .error (.danglingExpr id child))
        (if child < id then sc.laneOf child else .error (.danglingExpr id child)) := by
      by_cases hlt : child < id
      · simp only [if_pos hlt]
        exact ih child hlt
      · simp only [if_neg hlt]
        exact .refl _
    rw [laneOf, descend_eq, ← laneOf]
    unfold laneOfStep
    cases he : sc.expr id with
    | error e =>
      rw [infer, descend_eq, ← infer]
      simp only [inferStep, he]
      exact .refl _
    | ok e =>
      rw [ok_bind]
      cases e with
      | binary op left right =>
        rw [infer, descend_eq, ← infer]
        simp only [inferStep, he, ok_bind]
        by_cases hop : (op.isComparison || op.isLogical) = true
        · simp only [if_pos hop]
          exact .refl _
        · simp only [if_neg hop]
          apply (hsub left).bind
          intro leftLane
          apply (hsub right).bind
          intro rightLane
          exact .refl _
      | assign target value =>
        rw [infer, descend_eq, ← infer]
        simp only [inferStep, he, ok_bind]
        exact hsub value
      | unary op operand | update op operand | member base name | pointerMember base name =>
        rw [infer, descend_eq, ← infer]
        simp only [inferStep, he, ok_bind]
        exact .notImplemented _ _
      | _ => exact .refl _

end Scope

/-! ## Infix expressions -/

/-- The operators that calculate with numbers. -/
def BinaryOp.isArithmetic : BinaryOp → Bool
  | add => true
  | sub => true
  | mul => true
  | div => true
  | rem => true
  | _ => false

/-- The operators on the bits of integers. -/
def BinaryOp.isBitwise : BinaryOp → Bool
  | bitAnd => true
  | bitOr => true
  | bitXor => true
  | shl => true
  | shr => true
  | _ => false

theorem BinaryOp.computes_iff (op : BinaryOp) :
    (op.isArithmetic = true ∨ op.isBitwise = true) ↔
      ¬ (op.isComparison || op.isLogical) = true := by
  cases op <;> decide

namespace Scope

theorem promote_eq (left right : Lane) :
    promote left right = if left = .float ∨ right = .float then .float else .int := by
  cases left <;> cases right <;> rfl

/-- How lanes go through infix expressions: a comparison or a logical operator gives a boolean
whatever its operands are; any other operator, if both operands have a lane, gives a float if one of
them is a float, and else an integer. -/
structure PromotesLanes (sc : Scope) (laneAt : ExprId → Compiled Lane) : Prop where
  truth : ∀ id op left right, sc.arena.expr? id = some (.binary op left right) →
    op.isComparison = true ∨ op.isLogical = true → laneAt id = .ok .bool
  computes : ∀ id op left right leftLane rightLane,
    sc.arena.expr? id = some (.binary op left right) →
    op.isArithmetic = true ∨ op.isBitwise = true →
    laneAt left = .ok leftLane → laneAt right = .ok rightLane →
    laneAt id = .ok (if leftLane = .float ∨ rightLane = .float then .float else .int)

variable {sc : Scope}

theorem PromotesLanes.of_eq {laneAt : ExprId → Compiled Lane}
    (h : ∀ id op left right, sc.arena.expr? id = some (.binary op left right) →
      laneAt id = if op.isComparison || op.isLogical then .ok .bool
        else do return promote (← laneAt left) (← laneAt right)) : sc.PromotesLanes laneAt := by
  constructor
  · intro id op left right hid hop
    rw [h id op left right hid, if_pos]
    rw [Bool.or_eq_true]
    exact hop
  · intro id op left right leftLane rightLane hid hop hleft hright
    rw [h id op left right hid, if_neg (op.computes_iff.mp hop), hleft, hright, ← promote_eq]
    rfl

variable (harena : sc.arena.Descending)
include harena

theorem infer_binary {id left right : ExprId} {op : BinaryOp}
    (hid : sc.arena.expr? id = some (.binary op left right)) :
    sc.infer id = if op.isComparison || op.isLogical then .ok .bool
      else do return promote (← sc.infer left) (← sc.infer right) := by
  have hlt := harena id _ hid
  rw [infer, descend_eq, ← infer]
  simp only [inferStep, expr_eq_ok.mpr hid, ok_bind,
    if_pos (hlt left (by simp)), if_pos (hlt right (by simp))]

theorem laneOf_binary {id left right : ExprId} {op : BinaryOp}
    (hid : sc.arena.expr? id = some (.binary op left right)) :
    sc.laneOf id = if op.isComparison || op.isLogical then .ok .bool
      else do return promote (← sc.laneOf left) (← sc.laneOf right) := by
  rw [laneOf_eq harena hid]
  simp only [laneOfStep, expr_eq_ok.mpr hid, ok_bind]

end Scope

/-- In a scope over a validated arena, an expression that `infer` gives a lane has that lane by
`laneOf`, and an error of `infer` is an error of `laneOf`, unless it is that something is not
implemented. Both take lanes through infix expressions in the same way. -/
theorem laneOf_extends_infer {m : Module} (hm : m.validate = .ok ()) {sc : Scope}
    (harena : sc.arena = m.arena) :
    (∀ id lane, sc.infer id = .ok lane → sc.laneOf id = .ok lane) ∧
    (∀ id e, sc.infer id = .error e → (∀ construct, e ≠ .notImplemented construct) →
      sc.laneOf id = .error e) ∧
    sc.PromotesLanes sc.infer ∧ sc.PromotesLanes sc.laneOf := by
  have hdescending : sc.arena.Descending := by
    rw [harena]
    exact Module.descending_of_validate hm
  refine ⟨?_, ?_, ?_, ?_⟩
  · intro id lane h
    exact (sc.infer_extendedBy_laneOf id).ok h
  · intro id e h he
    exact (sc.infer_extendedBy_laneOf id).error h he
  · apply Scope.PromotesLanes.of_eq
    intro id op left right hid
    exact Scope.infer_binary hdescending hid
  · apply Scope.PromotesLanes.of_eq
    intro id op left right hid
    exact Scope.laneOf_binary hdescending hid

namespace Dial

/-- A float `x`, and around it `-x * 1`, `missing + -x * 1`, `-x * 1 + missing` and `-x * 1 < 1`. -/
def module : Module where
  name := "dial"
  items := [0]
  arena := {
    exprs := #[.int 1, .ident "x", .unary .neg 1, .binary .mul 2 0, .ident "missing",
      .binary .add 4 3, .binary .add 3 4, .binary .lt 3 0, .binary .sub 1 0]
    stmts := #[.letting ⟨"x", some .f32, 0, false⟩] }

def scope : Scope where
  info := {
    name := "dial"
    globals := ⟨[("x", ⟨.f32, .register, false, 0⟩)]⟩
    data := .startingAt 16 }
  arena := module.arena
  frame := none

end Dial

/-- A difference is a float by both. Where the unknown name comes first, both say so; where the
minus sign comes first, only `laneOf` gets to the name. A comparison has a lane although its operand
has none by `infer`. -/
theorem dial_lanes_extended : Dial.module.validate = .ok () ∧
    Dial.scope.infer 8 = .ok .float ∧ Dial.scope.laneOf 8 = .ok .float ∧
    Dial.scope.infer 5 = .error (.unknownVariable "missing") ∧
    Dial.scope.laneOf 5 = .error (.unknownVariable "missing") ∧
    Dial.scope.infer 6 = .error (.notImplemented "type inference for prefix expression") ∧
    Dial.scope.laneOf 6 = .error (.unknownVariable "missing") ∧
    Dial.scope.laneOf 3 = .ok .float ∧
    Dial.scope.infer 7 = .ok .bool ∧ Dial.scope.laneOf 7 = .ok .bool := by
  have hvalid : Dial.module.validate = .ok () := rfl
  have hdifference : Dial.scope.infer 8 = .ok .float := by decide +kernel
  have hunknown : Dial.scope.infer 5 = .error (.unknownVariable "missing") := by decide +kernel
  have hnegated : Dial.scope.laneOf 2 = .ok .float := by decide +kernel
  have hone : Dial.scope.laneOf 0 = .ok .int := by decide +kernel
  obtain ⟨hlane, herror, hinfer, hlaneOf⟩ :=
    laneOf_extends_infer hvalid (show Dial.scope.arena = Dial.module.arena from rfl)
  refine ⟨hvalid, hdifference, hlane 8 _ hdifference, hunknown, herror 5 _ hunknown (by simp),
    by decide +kernel, by decide +kernel, ?_, ?_, ?_⟩
  · exact hlaneOf.computes 3 .mul 2 0 .float .int rfl (by decide) hnegated hone
  · exact hinfer.truth 7 .lt 3 0 rfl (by decide)
  · exact hlaneOf.truth 7 .lt 3 0 rfl (by decide)

end WasmBackend
