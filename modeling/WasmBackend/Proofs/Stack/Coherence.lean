import WasmBackend.Proofs.Lanes
import WasmBackend.Proofs.Stack.Declared

/-!
# Which expressions validate

Lowering trusts `laneOf`: an operand is converted from the lane it is said to have. What its code
really leaves on the stack is another matter (`Scope.pushedLane`), and the two differ in two places.
An *assignment* has the lane of its value but leaves what its target holds. A *name of constant
data* has the lane of the content but leaves an address.

An expression is **coherent** if no operand in it is taken for something that it is not: where a
lane is relied on, it is the lane of what is pushed, and what serves as an address is an integer.
This turns out to be the exact condition under which the code of an expression passes validation.
Calls without a result are left to `Stack.VoidOperands`.
-/

namespace WasmBackend

open Lower

namespace Scope

variable (sc : Scope)

/-! ## Coherent expressions -/

/-- The lane of the value that the code of an expression leaves. -/
def pushedLane (id : ExprId) : Compiled Lane := do
  match ← sc.expr id with
  | .assign target _ => sc.laneOf target
  | .ident name => return (← sc.lookup name).heldLane
  | _ => sc.laneOf id

section

variable (coherent : ExprId → Bool)

/-- The operand's lane is that of the value it leaves. -/
def relied (id : ExprId) : Bool :=
  coherent id &&
    match sc.laneOf id, sc.pushedLane id with
    | .ok lane, .ok pushed => lane.isFloat == pushed.isFloat
    | _, _ => false

/-- The operand leaves an integer. -/
def address (id : ExprId) : Bool :=
  coherent id &&
    match sc.pushedLane id with
    | .ok pushed => !pushed.isFloat
    | .error _ => false

/-- The target of an assignment can be stored to. A member that has a local is stored to both, so
their lanes have to agree. -/
def placed : Expr → Bool
  | .index base position => sc.address coherent base && sc.relied coherent position
  | .unary .deref operand => sc.address coherent operand
  | .member base name =>
    match sc.flattenedMember? base name, sc.memberOf base name with
    | some v, .ok (_, layout) => layout.ty.lane.isFloat == v.ty.lane.isFloat
    | _, _ => true
  | _ => true

/-- What an expression asks of its operands, given which of these are coherent themselves. -/
def coherentWith : Expr → Bool
  | .binary _ left right => sc.relied coherent left && sc.relied coherent right
  | .unary .deref operand => sc.address coherent operand
  | .unary _ operand => sc.relied coherent operand
  | .index base position => sc.address coherent base && sc.relied coherent position
  | .call _ args => args.all (sc.relied coherent)
  | .assign target value =>
    (sc.arena.expr? target).elim false (sc.placed coherent) && sc.relied coherent value
  | _ => true

end

/-- No operand in the expression is taken for something that it is not. -/
def coherent : ExprId → Bool :=
  descend (fun _ _ => false) fun id sub => (sc.arena.expr? id).elim false (sc.coherentWith sub)

variable {sc}

theorem relied_congr {ok ok' : ExprId → Bool} {id : ExprId} (h : ok id = ok' id) :
    sc.relied ok id = sc.relied ok' id := by
  unfold relied
  rw [h]

theorem address_congr {ok ok' : ExprId → Bool} {id : ExprId} (h : ok id = ok' id) :
    sc.address ok id = sc.address ok' id := by
  unfold address
  rw [h]

/-- The condition looks no further than the operands, and those of an assignment's target. -/
theorem coherentWith_congr {ok ok' : ExprId → Bool} {e : Expr}
    (h : ∀ c ∈ e.children, ok c = ok' c)
    (htarget : ∀ target value, e = .assign target value → ∀ e', sc.arena.expr? target = some e' →
      ∀ c ∈ e'.children, ok c = ok' c) :
    sc.coherentWith ok e = sc.coherentWith ok' e := by
  cases e with
  | binary op left right =>
    simp only [coherentWith, relied_congr (h left (by simp)),
      relied_congr (h right (by simp))]
  | unary op operand =>
    have hop := h operand (by simp)
    cases op <;> simp only [coherentWith, relied_congr hop, address_congr hop]
  | index base position =>
    simp only [coherentWith, address_congr (h base (by simp)),
      relied_congr (h position (by simp))]
  | call callee args =>
    simp only [coherentWith]
    rw [Bool.eq_iff_iff, List.all_eq_true, List.all_eq_true]
    exact forall₂_congr fun arg harg => by rw [relied_congr (h arg harg)]
  | assign target value =>
    simp only [coherentWith, relied_congr (h value (by simp))]
    refine congrArg (· && _) ?_
    cases he : sc.arena.expr? target with
    | none => rfl
    | some e =>
      have hoperands := htarget target value rfl e he
      cases e with
      | index base position =>
        simp only [Option.elim_some, placed,
          address_congr (hoperands base (by simp)),
          relied_congr (hoperands position (by simp))]
      | unary op operand =>
        have hop := hoperands operand (by simp)
        cases op <;> simp only [Option.elim_some, placed, address_congr hop]
      | _ => rfl
  | _ => rfl

/-- In a validated module the recursion needs no guard. -/
theorem coherent_eq (harena : sc.arena.Descending) {id : ExprId} {e : Expr}
    (he : sc.arena.expr? id = some e) : sc.coherent id = sc.coherentWith sc.coherent e := by
  rw [coherent, descend_eq, ← coherent]
  simp only [he, Option.elim_some]
  refine coherentWith_congr (fun c hc => if_pos (harena id e he c hc)) ?_
  rintro target value rfl e' he' c hc
  have htarget : target < id := harena id _ he target (by simp)
  exact if_pos (Nat.lt_trans (harena target e' he' c hc) htarget)

end Scope

end WasmBackend
