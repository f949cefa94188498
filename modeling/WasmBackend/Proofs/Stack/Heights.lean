import WasmBackend.Proofs.Shapes
import WasmBackend.Proofs.Stack.LaneSoundness

/-!
# How high code can raise the stack

A call of a function without a result leaves nothing. Nothing keeps such a call from being used
where a value is wanted, and the code that takes the value then takes whatever is below it. So it is
not the call that validation stumbles over. What can be said wherever code is accepted is how high
it has raised the stack (`StackContext.height`): an operand by one value at most, and by one value
less for every operand in it that is missing (`Scope.missing`). At the end of a piece of code, when
the stack has to be of a given height, the missing values are found out.

Heights say nothing of types. Whether the values that are there are of the right ones is the subject
of `Stack.Rules`.
-/

namespace WasmBackend

open Compiled Lower

/-! ## Heights -/

namespace StackContext

section

variable (Γ : StackContext)

/-- What an instruction leaves on the stack, less what it takes off. -/
def rise : Instr → Int
  | .intConst _ => 1
  | .floatConst _ => 1
  | .localGet _ => 1
  | .globalGet _ => 1
  | .intBinary _ => -1
  | .floatBinary _ => -1
  | .localSet _ => -1
  | .globalSet _ => -1
  | .drop => -1
  | .store _ _ => -2
  | .call name => (Γ.functions name).elim 0 fun f => f.result.toList.length - f.params.length
  | _ => 0

/-- How much higher the stack is after the code. Both arms of a choice have to leave a value: with
an arm that is a value short, the choice is. -/
def height : Code → Int
  | .nil => 0
  | .instr i rest => Γ.rise i + height rest
  | .choose thenCode elseCode rest =>
    min (height thenCode) (height elseCode) - 1 + height rest

@[simp] theorem height_one (i : Instr) : Γ.height (.one i) = Γ.rise i := by
  simp [Code.one, height]

@[simp] theorem height_ofList_nil : Γ.height (.ofList []) = 0 := rfl

@[simp] theorem height_ofList_cons (i : Instr) (rest : List Instr) :
    Γ.height (.ofList (i :: rest)) = Γ.rise i + Γ.height (.ofList rest) := rfl

@[simp] theorem height_ifElse (a b : Code) :
    Γ.height (.ifElse a b) = min (Γ.height a) (Γ.height b) - 1 := by
  simp [Code.ifElse, height]

@[simp] theorem height_append (a b : Code) : Γ.height (a ++ b) = Γ.height a + Γ.height b := by
  have happ : ∀ c d : Code, c ++ d = c.append d := fun _ _ => rfl
  induction a with
  | nil => exact (Int.zero_add _).symm
  | instr i rest ih | choose _ _ rest _ _ ih =>
    simp only [happ, Code.append, height] at ih ⊢
    omega

end

variable {Γ : StackContext} {code : Code} {i : Instr}

theorem length_pop {ts stack stack' : List ValType} (h : pop ts stack = some stack') :
    stack.length = stack'.length + ts.length := by
  induction ts generalizing stack with
  | nil =>
    cases h
    rfl
  | cons t ts ih =>
    cases stack with
    | nil => cases h
    | cons u stack =>
      obtain ⟨-, hrest⟩ := Option.ite_none_right_eq_some.mp h
      rw [List.length_cons, ih hrest, List.length_cons]
      omega

theorem rise_of_type {t : List ValType × List ValType} (h : Γ.type? i = some t) :
    (t.2.length : Int) = t.1.length + Γ.rise i := by
  cases i with
  | localGet name | localSet name | localTee name | globalGet name =>
    obtain ⟨_, -, rfl⟩ := Option.map_eq_some_iff.mp h
    rfl
  | globalSet name =>
    simp only [type?] at h
    split at h <;> cases h
    rfl
  | call name =>
    obtain ⟨f, hf, rfl⟩ := Option.map_eq_some_iff.mp h
    simp only [rise, hf, Option.elim_some, List.length_reverse]
    omega
  | _ => cases h <;> rfl

theorem length_step {stack stack' : List ValType} (h : Γ.step i stack = some stack') :
    (stack'.length : Int) = stack.length + Γ.rise i := by
  by_cases hdrop : i = .drop
  · subst hdrop
    cases stack with
    | nil => cases h
    | cons t stack =>
      cases h
      exact (Int.add_neg_cancel_right _ 1).symm
  · rw [step_eq hdrop] at h
    obtain ⟨t, htype, hpop⟩ := Option.bind_eq_some_iff.mp h
    obtain ⟨rest, hrest, rfl⟩ := Option.map_eq_some_iff.mp hpop
    have hlength := length_pop hrest
    have hrise := rise_of_type htype
    rw [List.length_append]
    omega

/-- Wherever the code is accepted, it raises the stack by its height. -/
theorem length_check {stack stack' : List ValType} (h : Γ.check code stack = some stack') :
    (stack'.length : Int) = stack.length + Γ.height code := by
  induction code generalizing stack stack' with
  | nil =>
    cases h
    simp [height]
  | instr i rest ih =>
    obtain ⟨between, hstep, hrest⟩ := Option.bind_eq_some_iff.mp h
    have hfirst := length_step hstep
    have hothers := ih hrest
    rw [height]
    omega
  | choose thenCode elseCode rest ihThen ihElse ih =>
    cases stack with
    | nil => cases h
    | cons t stack =>
      cases t with
      | f32 => cases h
      | i32 =>
        -- Both arms start on an empty stack and leave one value, so their heights are one.
        obtain ⟨⟨hthen, helse⟩, hrest⟩ := Option.ite_none_right_eq_some.mp h
        have hthen := ihThen hthen
        have helse := ihElse helse
        have hothers := ih hrest
        simp only [List.length_cons, List.length_nil, height] at hthen helse hothers ⊢
        omega

theorem rise_of_operands {n : Nat} (h : i.operands? = some n) : Γ.rise i = 1 - n := by
  cases i <;> cases h <;> rfl

variable (Γ)

@[simp] theorem rise_get (v : Variable) : Γ.rise (.get v) = 1 :=
  rise_of_operands (Instr.get_operands v)

@[simp] theorem rise_constant (c : Constant) (lane : Lane) : Γ.rise (.constant c lane) = 1 :=
  rise_of_operands (Instr.constant_shape c lane).2

@[simp] theorem rise_drop : Γ.rise .drop = -1 := rfl

@[simp] theorem rise_tee (name : String) : Γ.rise (.localTee name) = 0 := rfl

@[simp] theorem rise_store (s : Scalar) (offset : Nat) : Γ.rise (.store s offset) = -2 := rfl

theorem rise_set {v : Variable} (h : Instr.set v = .ok i) : Γ.rise i = -1 := by
  unfold Instr.set at h
  split at h <;> cases h <;> rfl

end StackContext

/-! ## Missing values -/

/-- The operands whose values an expression takes. A literal in data takes none. -/
def Expr.operands (e : Expr) : List ExprId := if e.isDataLiteral then [] else e.children

namespace Scope

section

variable (sc : Scope)

/-- Is this a call of a function without a result? -/
def callsVoid : Expr → Bool
  | .call callee _ =>
    match signatureOf sc callee with
    | .ok s => s.result.isVoid
    | .error _ => false
  | _ => false

/-- Is this a call without a result, or is such a call used somewhere in it as an operand? -/
def lacks : ExprId → Bool :=
  descend (fun _ _ => false) fun id sub =>
    (sc.arena.expr? id).elim false fun e => sc.callsVoid e || e.operands.any sub

/-- How many of the operands are a value short. -/
def missing (operands : List ExprId) : Nat := operands.countP sc.lacks

/-- Is some operand of the expression a value short? -/
def starved (id : ExprId) : Bool :=
  (sc.arena.expr? id).elim false fun e => e.operands.any sc.lacks

end

variable {sc : Scope} {id : ExprId} {e : Expr}

theorem callsVoid_iff {callee : String} {args : List ExprId} {s : Signature}
    (hs : signatureOf sc callee = .ok s) :
    sc.callsVoid (.call callee args) = true ↔ s.result = .void := by
  simp only [callsVoid, hs]
  cases s.result <;> simp [Ty.isVoid]

theorem missing_cons (first : ExprId) (rest : List ExprId) :
    sc.missing (first :: rest) = sc.missing [first] + sc.missing rest := by
  simp only [missing, List.countP_cons, List.countP_nil]
  omega

theorem missing_one (id : ExprId) : sc.missing [id] = if sc.lacks id then 1 else 0 := by
  simp [missing]

theorem missing_one_le (id : ExprId) : sc.missing [id] ≤ 1 := by
  rw [missing_one]
  split <;> omega

theorem missing_pos_iff {l : List ExprId} : 0 < sc.missing l ↔ l.any sc.lacks = true := by
  rw [missing, List.countP_pos_iff, List.any_eq_true]

theorem starved_eq (he : sc.arena.expr? id = some e) :
    sc.starved id = e.operands.any sc.lacks := by
  rw [starved, he, Option.elim_some]

theorem operands_subset (e : Expr) : e.operands ⊆ e.children := by
  unfold Expr.operands
  split
  · exact List.nil_subset _
  · exact List.Subset.refl _

variable (harena : sc.arena.Descending)
include harena

/-- In a validated module the recursion needs no guard. -/
theorem lacks_eq (he : sc.arena.expr? id = some e) :
    sc.lacks id = (sc.callsVoid e || e.operands.any sc.lacks) := by
  rw [lacks, descend_eq, ← lacks]
  simp only [he, Option.elim_some]
  refine congrArg (sc.callsVoid e || ·) ?_
  rw [Bool.eq_iff_iff, List.any_eq_true, List.any_eq_true]
  refine exists_congr fun child => and_congr_right fun hchild => ?_
  rw [if_pos (harena id e he child (operands_subset e hchild))]

theorem missing_of_plain (he : sc.arena.expr? id = some e) (hplain : sc.callsVoid e = false)
    (hoperands : e.operands = []) : sc.missing [id] = 0 := by
  rw [missing_one, lacks_eq harena he, hplain, hoperands]
  rfl

theorem missing_literal {lane : Lane} (he : sc.arena.expr? id = some e)
    (h : e.literalLane? = some lane) : sc.missing [id] = 0 := by
  cases e <;> cases h <;> exact missing_of_plain harena he rfl rfl

theorem missing_constant (h : (sc.constant? id).isSome = true) : sc.missing [id] = 0 := by
  obtain ⟨e, lane, he, hlane⟩ | ⟨operand, e, lane, he, hoperand, hlane⟩ := constant?_literal h
  · exact missing_literal harena he hlane
  · have hnone := missing_literal harena hoperand hlane
    rw [missing_one] at hnone
    rw [missing_one, lacks_eq harena he]
    simpa [callsVoid, Expr.operands, Expr.isDataLiteral] using hnone

end Scope

/-! ## Operands -/

/-- The code of the operand raises the stack by one value, less what is missing. -/
def Weighed (sc : Scope) (sub : ExprId → Compiled Code) (id : ExprId) : Prop :=
  ∀ code, sub id = .ok code → sc.declared.height code ≤ 1 - sc.missing [id]

open StackContext

section Operands

variable {sc : Scope} {sub : ExprId → Compiled Code} {id : ExprId} {code : Code}

theorem missing_append (a b : List ExprId) :
    sc.missing (a ++ b) = sc.missing a + sc.missing b := List.countP_append

variable (harena : sc.arena.Descending)

include harena

theorem missing_ident {x : String} (h : sc.arena.expr? id = some (.ident x)) :
    sc.missing [id] = 0 :=
  sc.missing_of_plain harena h rfl rfl

/-- An expression is a value short only if one of its operands is, unless it is a call. -/
theorem missing_le_operands {e : Expr} (he : sc.arena.expr? id = some e)
    (hplain : sc.callsVoid e = false) : sc.missing [id] ≤ sc.missing e.operands := by
  rw [Scope.missing_one]
  split
  · next hlacks =>
    rw [Scope.lacks_eq harena he, hplain, Bool.false_or] at hlacks
    exact Scope.missing_pos_iff.mpr hlacks
  · omega

theorem Want.height (want : Want) (h : Weighed sc sub id) (hcode : want.code sc sub id = .ok code) :
    sc.declared.height code ≤ 1 - sc.missing [id] := by
  obtain ⟨c, lane, hc, rfl⟩ | ⟨own, after, hown, hafter, rfl⟩ := Want.code_ok hcode
  · simp [sc.missing_constant harena (by rw [hc]; rfl)]
  · have hle := h own hown
    have hadapted : sc.declared.height (.ofList after) = 0 := by
      cases hafter with
      | none => rfl
      | change hi => simp [rise_of_operands hi]
      | compare _ hc hi => simp [rise_of_operands hc, rise_of_operands hi]
    rw [height_append, hadapted]
    omega

theorem Plan.Makes.height {p : Plan} (hsub : ∀ id, Weighed sc sub id) (h : p.Makes sc sub code) :
    sc.declared.height code ≤ 1 - sc.missing p.operands := by
  induction p generalizing code with
  | operand id want => exact want.height harena (hsub id) h
  | push i =>
    obtain ⟨hi, rfl⟩ := h
    have hzero : i.operands? = some 0 := by
      cases hi with
      | plain _ hi => exact hi
      | named | flattened => exact Instr.get_operands _
    rw [height_one, rise_of_operands hzero]
    exact Int.le_refl 1
  | change i p ih =>
    obtain ⟨hi, a, ha, rfl⟩ := h
    have hle := ih ha
    rw [height_append, height_one, rise_of_operands hi]
    simpa [operands] using hle
  | combine i p q ihp ihq =>
    obtain ⟨hi, a, b, ha, hb, rfl⟩ := h
    have hleft := ihp ha
    have hright := ihq hb
    rw [height_append, height_append, height_one, rise_of_operands hi, operands, missing_append]
    omega
  | choose op p q ihp ihq =>
    -- With a missing right operand the arm that computes it is a value short.
    obtain ⟨a, b, ha, hb, rfl⟩ := h
    have hleft := ihp ha
    have hright := ihq hb
    rw [operands, missing_append]
    unfold chooseCode
    split <;> simp only [height_append, height_ifElse, height_one, rise] <;> omega

theorem Performs.height {values : List Plan} {after : List Instr} (hsub : ∀ id, Weighed sc sub id)
    (h : Performs sc sub values after code) :
    sc.declared.height code ≤ values.length - sc.missing (values.flatMap Plan.operands) +
      sc.declared.height (.ofList after) := by
  induction values generalizing code with
  | nil =>
    subst h
    simp [Scope.missing]
  | cons p rest ih =>
    obtain ⟨a, others, ha, hothers, rfl⟩ := h
    have hfirst := ha.height harena hsub
    have hrest := ih hothers
    rw [height_append, List.length_cons, List.flatMap_cons, missing_append]
    omega

end Operands

/-! ## Rules -/

section Rules

variable {sc : Scope} (harena : sc.arena.Descending) {id : ExprId} {e : Expr} {p : Plan}

theorem flattenedMember?_base {base : ExprId} {name : String} {v : Variable}
    (h : sc.flattenedMember? base name = some v) : ∃ x, sc.arena.expr? base = some (.ident x) := by
  unfold Scope.flattenedMember? at h
  split at h
  · next x hbase => exact ⟨x, hbase⟩
  · cases h

theorem callsVoid_of_hasEffect (h : e.hasEffect = false) : sc.callsVoid e = false := by
  cases e <;> first | rfl | cases h

include harena

/-- What an address leaves out is there: the name of a struct, or an index of zero. -/
theorem PlaceRule.missing_le {s : Scalar} {offset : Nat} (h : PlaceRule sc e p s offset) :
    sc.missing e.operands ≤ sc.missing p.operands := by
  cases h with
  | @first base position _ _ hposition =>
    show sc.missing [base, position] ≤ sc.missing [base]
    rw [Scope.missing_cons, sc.missing_literal harena hposition rfl]
    exact Nat.le_refl _
  | element | scaled | deref => exact Nat.le_refl _
  | @member e base name v layout s he hmember =>
    obtain ⟨x, -, -, hbase, -⟩ := Scope.memberOf_ok hmember
    have hnone : sc.missing e.operands = 0 := by
      rcases he with rfl | rfl <;> exact missing_ident harena hbase
    omega

theorem ValueRule.missing_le (he : sc.arena.expr? id = some e) (h : ValueRule sc id e p) :
    sc.missing e.operands ≤ sc.missing p.operands := by
  cases h with
  | literal hi => cases e <;> first | exact Nat.le_refl _ | cases hi
  | @flattened base name v hv =>
    obtain ⟨x, hbase⟩ := flattenedMember?_base hv
    exact Nat.le_of_eq (missing_ident harena hbase)
  | load hplace => exact hplace.missing_le harena
  | @negative operand c lane hc =>
    -- A negated constant is a literal with a sign, so that its operand is there.
    have hid := sc.missing_constant harena (by rw [hc]; rfl)
    rw [Scope.missing_one, Scope.lacks_eq harena he] at hid
    show sc.missing [operand] ≤ 0
    rw [Scope.missing_one]
    simpa [Scope.callsVoid, Expr.operands, Expr.isDataLiteral] using hid
  | _ => exact Nat.le_refl _

variable {keep : Bool} {values : List Plan} {after : List Instr}

/-- An expression with an effect leaves its value, if that is wanted and there is one. -/
theorem EffectRule.height (hnv : sc.NonVoid) (h : EffectRule sc keep e values after) :
    sc.missing e.operands ≤ sc.missing (values.flatMap Plan.operands) ∧
      values.length + sc.declared.height (.ofList after) =
        if keep && !sc.callsVoid e then 1 else 0 := by
  -- The target is not lowered itself, but what it is made of is among the operands.
  have hplace {target value : ExprId} {e : Expr} {p : Plan} {s : Scalar} {offset : Nat}
    {lane : Lane}
      (htarget : sc.arena.expr? target = some e) (hrule : PlaceRule sc e p s offset) :
      sc.missing [target, value] ≤
        sc.missing ([p, .operand value (.inLane lane)].flatMap Plan.operands) := by
    have hplain : sc.callsVoid e = false :=
      callsVoid_of_hasEffect hrule.hasEffect
    have hle := missing_le_operands harena htarget hplain
    have hle' := hrule.missing_le harena
    rw [Scope.missing_cons]
    show _ ≤ sc.missing (p.operands ++ [value])
    rw [missing_append]
    omega
  cases h with
  | @update op operand name v set hoperand hv hset =>
    refine ⟨?_, ?_⟩
    · show sc.missing [operand] ≤ _
      rw [missing_ident harena hoperand]
      exact Nat.zero_le _
    · have hset := sc.declared.rise_set hset
      cases keep <;> cases v.ty.lane.isFloat <;> cases op <;>
        simp [countBy, hset, Scope.callsVoid] <;> rfl
  | @call callee args s hs hlength =>
    have hoperands : ((args.zip s.paramLanes).map fun a => Plan.operand a.1 (.inLane a.2)).flatMap
        Plan.operands = args := by
      rw [List.flatMap_map]
      exact List.map_eq_flatMap.symm.trans (List.map_fst_zip (Nat.le_of_eq hlength))
    refine ⟨by rw [hoperands]; exact Nat.le_refl _, ?_⟩
    have hresult : ((funcType s).result.toList.length : Int) =
        if s.resultLane = .void then 0 else 1 := by
      rw [funcType]
      cases s.resultLane <;> rfl
    -- No parameter is void, so the type has one for each argument.
    have hparams : (funcType s).params.length = args.length := by
      rw [funcType, filterMap_valType? (hnv.paramLanes_ne_void hs), List.length_map, hlength]
    have hcall : sc.declared.rise (.call callee) = (if s.resultLane = .void then 0 else 1) -
        args.length := by
      rw [← hresult, ← hparams]
      simp only [rise, Scope.declared, hs, Except.toOption, Option.map_some, Option.elim_some]
    have hvoid : sc.callsVoid (.call callee args) = true ↔ s.resultLane = .void :=
      (Scope.callsVoid_iff hs).trans Ty.lane_eq_void_iff.symm
    rw [List.length_map, List.length_zip, ← hlength, Nat.min_self, height_ofList_cons, hcall]
    by_cases hlane : s.resultLane = .void
    · simp only [hlane, hvoid.mpr hlane, decide_true, Bool.or_true, if_true, height_ofList_nil,
        Bool.not_true, Bool.and_false, Bool.false_eq_true, if_false]
      omega
    · have hvalue : sc.callsVoid (.call callee args) = false :=
        Bool.eq_false_iff.mpr (mt hvoid.mp hlane)
      cases keep <;> simp [hlane, hvalue] <;> omega
  | @assignVariable target value name v set htarget hv hset =>
    refine ⟨?_, ?_⟩
    · have hmissing : sc.missing [target, value] = sc.missing [value] := by
        rw [Scope.missing_cons, missing_ident harena htarget, Nat.zero_add]
      exact Nat.le_of_eq hmissing
    · have hset := sc.declared.rise_set hset
      cases keep <;> cases v.isLocal <;> simp [hset, Scope.callsVoid]
  | assignFlattened htarget _ hrule =>
    refine ⟨hplace htarget hrule, ?_⟩
    cases keep <;> simp [Scope.callsVoid]
  | assignPlace htarget hkeep hrule =>
    refine ⟨hplace htarget hrule, ?_⟩
    simp [hkeep]

end Rules

/-! ## Expressions -/

section Induction

variable {sc : Scope} (harena : sc.arena.Descending) (hnv : sc.NonVoid)
variable {sub : ExprId → Compiled Code} {id : ExprId} {e : Expr} {code : Code}
include harena hnv

theorem lowerStep_height (he : sc.arena.expr? id = some e)
    (hsub : ∀ id, Weighed sc sub id) (h : lowerStep sc id sub = .ok code) :
    sc.declared.height code ≤ (if sc.callsVoid e then 0 else 1) - sc.missing e.operands := by
  obtain ⟨e', he', ⟨p, hrule, hp⟩ | ⟨values, after, hrule, hvalues⟩⟩ := lowerStep_ok h <;>
    cases he.symm.trans he'
  · have hheight := hp.height harena hsub
    have hmissing := hrule.missing_le harena he
    rw [callsVoid_of_hasEffect hrule.hasEffect, if_neg Bool.false_ne_true]
    omega
  · have hheight := hvalues.height harena hsub
    obtain ⟨hmissing, hleft⟩ := hrule.height harena hnv
    cases hvoid : sc.callsVoid e <;> simp [hvoid] at hleft ⊢ <;> omega

/-- The code of an expression raises the stack by one value, less what is missing. -/
theorem lower_weighed (id : ExprId) : Weighed sc (lower sc) id := by
  intro code h
  refine lower_induction (P := fun id code => sc.declared.height code ≤ 1 - sc.missing [id]) ?_ h
  intro id sub code hsub h
  obtain ⟨e, he, -⟩ := bind_ok.mp h
  rw [Scope.expr_eq_ok] at he
  have hheight := lowerStep_height harena hnv he hsub h
  split at hheight
  · have hbound := sc.missing_one_le id
    omega
  · next hvoid =>
    have hle := missing_le_operands harena he (Bool.eq_false_iff.mpr hvoid)
    omega

/-- An expression for its effect leaves nothing, and takes off what is missing. -/
theorem discard_height (hdecl : sc.WellDeclared) (h : discard sc id = .ok code) :
    ∃ e, sc.arena.expr? id = some e ∧ sc.declared.height code ≤ -(sc.missing e.operands : Int) := by
  obtain ⟨e, he, ⟨values, after, hrule, hvalues⟩ | ⟨heffect, lane, own, hlane, hown, rfl⟩⟩ :=
    discard_ok h
  · have hheight := hvalues.height harena (lower_weighed harena hnv)
    obtain ⟨hmissing, hleft⟩ := hrule.height harena hnv
    rw [Bool.false_and, if_neg Bool.false_ne_true] at hleft
    exact ⟨e, he, by omega⟩
  · have hvalue := laneOf_plain_ne_void harena hdecl hnv he (by rintro _ _ rfl; cases heffect)
      (by rintro _ _ rfl; cases heffect) hlane
    rw [lower, descend_eq, ← lower] at hown
    have hheight := lowerStep_height harena hnv he
      (fun c code h => lower_weighed harena hnv c code (lower_of_guarded h)) hown
    rw [callsVoid_of_hasEffect heffect, if_neg Bool.false_ne_true] at hheight
    refine ⟨e, he, ?_⟩
    rw [dropValue, if_neg hvalue, height_append, height_one]
    simp only [rise]
    omega

end Induction

end WasmBackend
