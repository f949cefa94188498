import WasmBackend.Proofs.Plans
import WasmBackend.Proofs.Truth.Bits

/-!
# What logical operators leave

The code of `&&` and `||` brings the left operand to a truth value and chooses by it: one arm is the
constant that the left operand alone decides, the other brings the right operand to a truth value. A
float is compared with zero, and so is an integer. A boolean is taken as it is, so the value that is
left is as good as the boolean: it is zero or one exactly if the right operand is not needed, or is
a number, or is zero or one itself (`LogicalRun.isBit_iff`). That it is *non-zero* when it should be
does not depend on this (`LogicalRun.truth`). Which operands are bits is not asked here.
-/

namespace WasmBackend

open Compiled Lower

/-- A logical operator on truth values. -/
def BinaryOp.combine (op : BinaryOp) (a b : Bool) : Bool := if op = .and then a && b else a || b

/-- The truth of an operand in a lane: it is not zero. -/
def Environment.holds (env : Environment) (lane : Lane) (w : Word) : Bool :=
  if lane.isFloat then env.floats.binary .ne w (env.floats.literal (.whole 0)) != 0 else w != 0

/-- What an operand in a lane is brought to. -/
def Environment.asTruth (env : Environment) : Lane → Word → Word
  | .int, w => Word.ofBool (w != 0)
  | .float, w => env.floats.binary .ne w (env.floats.literal (.whole 0))
  | _, w => w

theorem Environment.asTruth_ne_zero (env : Environment) (lane : Lane) (w : Word) :
    (env.asTruth lane w != 0) = env.holds lane w := by
  cases lane with
  | int =>
    show (Word.ofBool (w != 0) != 0) = (w != 0)
    cases w != 0 <;> rfl
  | _ => rfl

/-- Numbers are brought to a bit; anything else has to be one. -/
theorem Environment.asTruth_isBit_iff {env : Environment} (hfloats : env.floats.Compares)
    (lane : Lane) (w : Word) :
    (env.asTruth lane w).IsBit ↔ lane = .int ∨ lane = .float ∨ w.IsBit := by
  cases lane with
  | int => simpa [asTruth] using Word.isBit_ofBool _
  | float => simpa [asTruth] using hfloats .ne w _ rfl
  | _ => simp [asTruth]

/-! ## Code -/

namespace Lower

/-- The code of a logical operator, from the code of its operands. -/
theorem lower_logical {sc : Scope} {id left right : ExprId} {op : BinaryOp} {code : Code}
    (he : sc.arena.expr? id = some (.binary op left right)) (hop : op.isLogical = true)
    (h : lower sc id = .ok code) :
    ∃ leftLane rightLane leftCode rightCode, sc.laneOf left = .ok leftLane ∧
      sc.laneOf right = .ok rightLane ∧ lower sc left = .ok leftCode ∧
      lower sc right = .ok rightCode ∧
      code = leftCode ++ truthCode leftLane ++
        chooseCode op (rightCode ++ truthCode rightLane) := by
  rw [lower, descend_eq, ← lower] at h
  obtain ⟨e, he', ⟨p, hrule, hp⟩ | ⟨values, after, hrule, -⟩⟩ := lowerStep_ok h <;>
    cases he.symm.trans he' <;> cases hrule
  case logical =>
    obtain ⟨first, second, hfirst, hsecond, rfl⟩ := hp
    obtain ⟨leftLane, leftCode, hleftLane, hleft, rfl⟩ := truthWith_ok hfirst
    obtain ⟨rightLane, rightCode, hrightLane, hright, rfl⟩ := truthWith_ok hsecond
    exact ⟨leftLane, rightLane, leftCode, rightCode, hleftLane, hrightLane, lower_of_guarded hleft,
      lower_of_guarded hright, rfl⟩
  case binary hlogical _ _ _ =>
    rw [hop] at hlogical
    cases hlogical
  case literal hi => cases hi
  case load hplace _ => cases hplace; simp_all

end Lower

/-! ## Running it -/

variable {env : Environment} {stack stack' below : List Word} {state state' : MachineState}

theorem execute_truthCode {lane : Lane} {w : Word} :
    (truthCode lane).execute env stack state = .ok (w :: below, state') ↔
      ∃ v, stack = v :: below ∧ state = state' ∧ w = env.asTruth lane v := by
  cases stack with
  | nil =>
    cases lane <;> simp [truthCode, Code.execute, Instr.perform, Instr.exec, Except.bind,
      Except.map]
  | cons v rest =>
    have hrun : (truthCode lane).execute env (v :: rest) state =
        .ok (env.asTruth lane v :: rest, state) := by
      cases lane <;> rfl
    rw [hrun]
    constructor
    · intro h
      cases h
      exact ⟨v, rfl, rfl, rfl⟩
    · rintro ⟨v', hv, rfl, rfl⟩
      cases hv
      rfl

/-- An operand that is brought to a truth value. -/
theorem execute_operand {code : Code} {lane : Lane} {w : Word} :
    (code ++ truthCode lane).execute env stack state = .ok (w :: below, state') ↔
      ∃ v, code.execute env stack state = .ok (v :: below, state') ∧ w = env.asTruth lane v := by
  rw [Code.execute_append, ExecResult.bind_ok]
  constructor
  · rintro ⟨⟨inner, _⟩, hcode, htruth⟩
    obtain ⟨v, rfl, rfl, hw⟩ := execute_truthCode.mp htruth
    exact ⟨v, hcode, hw⟩
  · rintro ⟨v, hcode, hw⟩
    exact ⟨_, hcode, execute_truthCode.mpr ⟨v, rfl, rfl, hw⟩⟩

/-- A choice that comes to its end leaves the value of the arm that was taken. -/
theorem execute_ifElse {thenCode elseCode : Code}
    (h : (Code.ifElse thenCode elseCode).execute env stack state = .ok (stack', state')) :
    ∃ w below v, stack = w :: below ∧ stack' = v :: below ∧
      (if w = 0 then elseCode else thenCode).execute env [] state = .ok ([v], state') := by
  cases stack with
  | nil => cases h
  | cons w below =>
    obtain ⟨_, harm, heq⟩ := ExecResult.bind_ok.mp h
    cases heq
    obtain ⟨⟨inner, state₁⟩, htaken, hover⟩ := ExecResult.bind_ok.mp harm
    unfold ExecResult.handOver at hover
    split at hover
    · next v _ heq =>
      cases heq
      cases hover
      refine ⟨w, below, v, rfl, rfl, ?_⟩
      rw [← htaken]
      split <;> rfl
    · cases hover

/-- A logical operator runs the code of its right operand if its truth matters, and else leaves what
the left one decides. -/
theorem execute_chooseCode {op : BinaryOp} {second : Code}
    (h : (chooseCode op second).execute env stack state = .ok (stack', state')) :
    ∃ w below v, stack = w :: below ∧ stack' = v :: below ∧
      ((op.combine (w != 0) true ≠ op.combine (w != 0) false ∧
          second.execute env [] state = .ok ([v], state')) ∨
        (op.combine (w != 0) true = op.combine (w != 0) false ∧ v = Word.ofBool (w != 0) ∧
          state' = state)) := by
  unfold chooseCode at h
  split at h <;> obtain ⟨w, below, v, rfl, rfl, harm⟩ := execute_ifElse h <;>
    refine ⟨w, below, v, rfl, rfl, ?_⟩ <;> by_cases hw : w = 0
  · next hand =>
    rw [if_pos hw] at harm
    cases harm
    exact .inr (by simp [BinaryOp.combine, hand, hw, Word.ofBool])
  · next hand =>
    rw [if_neg hw] at harm
    exact .inl ⟨by rw [bne_iff_ne.mpr hw]; simp [BinaryOp.combine, hand], harm⟩
  · next hor =>
    rw [if_pos hw] at harm
    exact .inl ⟨by simp [BinaryOp.combine, hor, hw], harm⟩
  · next hor =>
    rw [if_neg hw] at harm
    cases harm
    exact .inr (by rw [bne_iff_ne.mpr hw]; simp [BinaryOp.combine, hor, Word.ofBool])

/-! ## The value of a logical operator -/

/-- How the code of a logical operator came to its end: the operands, what they were worth, and the
value that is left. The right operand is evaluated only if the left one does not decide. -/
structure LogicalRun (sc : Scope) (env : Environment) (op : BinaryOp) (left right : ExprId)
    (stack : List Word) (state : MachineState) (stack' : List Word) (state' : MachineState) where
  leftLane : Lane
  rightLane : Lane
  leftCode : Code
  rightCode : Code
  leftValue : Word
  rightValue? : Option Word
  value : Word
  below : List Word
  between : MachineState
  leftLane_eq : sc.laneOf left = .ok leftLane
  rightLane_eq : sc.laneOf right = .ok rightLane
  leftCode_eq : lower sc left = .ok leftCode
  rightCode_eq : lower sc right = .ok rightCode
  runs_left : leftCode.execute env stack state = .ok (leftValue :: below, between)
  runs_right : ∀ w, rightValue? = some w → rightCode.execute env [] between = .ok ([w], state')
  skips_right : rightValue? = none → state' = between
  right_decides : rightValue?.isSome = true ↔
    op.combine (env.holds leftLane leftValue) true ≠ op.combine (env.holds leftLane leftValue) false
  value_eq : value =
    rightValue?.elim (Word.ofBool (env.holds leftLane leftValue)) (env.asTruth rightLane)
  stack_eq : stack' = value :: below

namespace LogicalRun

variable {sc : Scope} {op : BinaryOp} {left right : ExprId}
variable (r : LogicalRun sc env op left right stack state stack' state')

/-- The value is not zero exactly if the truth values of the operands combine to true, whatever that
of an operand is that was not evaluated. -/
theorem truth {b : Bool} (hb : ∀ w, r.rightValue? = some w → b = env.holds r.rightLane w) :
    (r.value != 0) = op.combine (env.holds r.leftLane r.leftValue) b := by
  have hdecides := r.right_decides
  rw [r.value_eq]
  cases hright : r.rightValue? with
  | none =>
    have hvalue : ∀ a, (Word.ofBool a != 0) = a := by decide
    simp only [hright, Option.isSome_none, Bool.false_eq_true, false_iff, Decidable.not_not]
      at hdecides
    rw [Option.elim_none, hvalue]
    unfold BinaryOp.combine at hdecides ⊢
    split at hdecides <;> simp_all
  | some w =>
    rw [Option.elim_some, Environment.asTruth_ne_zero, ← hb w hright]
    simp only [hright, Option.isSome_some, true_iff] at hdecides
    unfold BinaryOp.combine at hdecides ⊢
    split at hdecides <;> simp_all

/-- The value is a bit exactly if the right operand was not evaluated, or is a number, or was a
bit. -/
theorem isBit_iff (hfloats : env.floats.Compares) : r.value.IsBit ↔
    ∀ w, r.rightValue? = some w → r.rightLane = .int ∨ r.rightLane = .float ∨ w.IsBit := by
  rw [r.value_eq]
  cases r.rightValue? with
  | none => simpa using Word.isBit_ofBool _
  | some w => simpa using env.asTruth_isBit_iff hfloats r.rightLane w

end LogicalRun

/-- The code of a logical operator that comes to its end does so as a `LogicalRun`. -/
theorem Lower.exists_logicalRun {sc : Scope} {id left right : ExprId} {op : BinaryOp} {code : Code}
    (he : sc.arena.expr? id = some (.binary op left right)) (hop : op.isLogical = true)
    (h : lower sc id = .ok code)
    (hrun : code.execute env stack state = .ok (stack', state')) :
    Nonempty (LogicalRun sc env op left right stack state stack' state') := by
  obtain ⟨leftLane, rightLane, leftCode, rightCode, hleftLane, hrightLane, hleft, hright, rfl⟩ :=
    lower_logical he hop h
  rw [Code.execute_append, ExecResult.bind_ok] at hrun
  obtain ⟨⟨_, between⟩, hfirst, hchoice⟩ := hrun
  obtain ⟨w, below, v, rfl, rfl, harm⟩ := execute_chooseCode hchoice
  obtain ⟨x, hleftRun, rfl⟩ := execute_operand.mp hfirst
  rw [env.asTruth_ne_zero] at harm
  rcases harm with ⟨hdecides, harm⟩ | ⟨hdecides, rfl, rfl⟩
  · obtain ⟨y, hrightRun, rfl⟩ := execute_operand.mp harm
    exact ⟨{
      leftLane, rightLane, leftCode, rightCode
      leftValue := x
      rightValue? := some y
      value := env.asTruth rightLane y
      below, between
      leftLane_eq := hleftLane
      rightLane_eq := hrightLane
      leftCode_eq := hleft
      rightCode_eq := hright
      runs_left := hleftRun
      runs_right := fun w hw => by cases hw; exact hrightRun
      skips_right := fun h => by cases h
      right_decides := by simpa using hdecides
      value_eq := rfl
      stack_eq := rfl }⟩
  · exact ⟨{
      leftLane, rightLane, leftCode, rightCode
      leftValue := x
      rightValue? := none
      value := Word.ofBool (env.holds leftLane x)
      below
      between := state'
      leftLane_eq := hleftLane
      rightLane_eq := hrightLane
      leftCode_eq := hleft
      rightCode_eq := hright
      runs_left := hleftRun
      runs_right := fun w hw => by cases hw
      skips_right := fun _ => rfl
      right_decides := by simpa using hdecides
      value_eq := rfl
      stack_eq := rfl }⟩

end WasmBackend
