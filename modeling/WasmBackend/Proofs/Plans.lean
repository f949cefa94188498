import WasmBackend.Proofs.Lanes

/-!
# What the rules of lowering make

Whatever is to be shown of lowered code, the rules of lowering have to be gone through. They are
read here once, and put down as data. The code of a value is made after a **plan**: a tree whose
leaves are operands and instructions that push, and whose nodes are instructions that take one value
or two. A rule with an effect carries out plans one after the other and then runs a few
instructions. Which plans an expression may be lowered by is said by three relations (`PlaceRule`,
`ValueRule` and `EffectRule`), and `lowerStep_ok` and `discard_ok` say that there are no other ways.

Whether a rule applies at all is not asked, so nothing here says that an expression can be lowered.
-/

namespace WasmBackend

open Compiled Lower

/-! ## Instructions -/

namespace Instr

/-- How many values the instruction takes, if all it does is to put one in their place. -/
def operands? : Instr → Option Nat
  | .intConst _ | .floatConst _ | .localGet _ | .globalGet _ => some 0
  | .intEqz | .floatNeg | .floatOfInt | .intOfFloat | .load _ _ => some 1
  | .intBinary _ | .floatBinary _ => some 2
  | _ => none

/-- Does the instruction name no variable, function or label? -/
def isPlain : Instr → Bool
  | .localGet _ => false
  | .localSet _ => false
  | .localTee _ => false
  | .globalGet _ => false
  | .globalSet _ => false
  | .call _ => false
  | .branch _ => false
  | .branchIf _ => false
  | _ => true

theorem isPlain_of_operands {i : Instr} {n : Nat} (h : i.operands? = some (n + 1)) :
    i.isPlain = true := by
  cases i <;> first | rfl | cases h

theorem constant_shape (c : Constant) (lane : Lane) :
    (constant c lane).isPlain = true ∧ (constant c lane).operands? = some 0 := by
  unfold constant single
  split <;> exact ⟨rfl, rfl⟩

theorem get_operands (v : Variable) : (get v).operands? = some 0 := by
  unfold get
  split <;> rfl

theorem convert_operands {source target : Lane} {i : Instr} (h : convert? source target = some i) :
    i.operands? = some 1 := by
  unfold convert? at h
  split at h <;> cases h <;> rfl

/-- Operators that floats do not have are the logical ones and those for integers only. -/
theorem binary_operands {op : BinaryOp} {float : Bool} (hlogical : op.isLogical = false)
    (hinteger : (float && op.isIntegerOnly) = false) : (binary op float).operands? = some 2 := by
  cases float with
  | false => rfl
  | true =>
    cases op <;> first | rfl | exact absurd hlogical (by decide) | exact absurd hinteger (by decide)

end Instr

/-- Pushes a constant, or a variable that is in sight. -/
inductive Scope.Pushes (sc : Scope) : Instr → Prop
  | plain {i : Instr} (hplain : i.isPlain = true) (hi : i.operands? = some 0) : sc.Pushes i
  | named {name : String} {v : Variable} (hv : sc.lookup name = .ok v) : sc.Pushes (.get v)
  | flattened {base : ExprId} {name : String} {v : Variable}
      (hv : sc.flattenedMember? base name = some v) : sc.Pushes (.get v)

/-! ## Plans -/

/-- How the value of an operand is wanted. -/
inductive Want
  | own
  | inLane (lane : Lane)
  | condition
  | truth

/-- What a logical operator does with the truth of its left operand. -/
def Lower.chooseCode (op : BinaryOp) (second : Code) : Code :=
  if op = .and then .ifElse second (.one (.intConst 0)) else .ifElse (.one (.intConst 1)) second

/-- How a value is put together. -/
inductive Plan
  | operand (id : ExprId) (want : Want)
  | push (i : Instr)
  | change (i : Instr) (p : Plan)
  | combine (i : Instr) (p q : Plan)
  | choose (op : BinaryOp) (p q : Plan)

/-- The operands that a plan takes the values of. -/
def Plan.operands : Plan → List ExprId
  | operand id _ => [id]
  | push _ => []
  | change _ p => p.operands
  | combine _ p q => p.operands ++ q.operands
  | choose _ p q => p.operands ++ q.operands

section Making

variable (sc : Scope) (sub : ExprId → Compiled Code)

/-- The code of an operand that is wanted in this way. -/
def Want.code (id : ExprId) : Want → Compiled Code
  | own => sub id
  | inLane lane => asLaneWith sc sub id lane
  | condition => conditionWith sc sub id
  | truth => truthWith sc sub id

/-- The code is made after the plan. -/
def Plan.Makes : Plan → Code → Prop
  | operand id want, code => want.code sc sub id = .ok code
  | push i, code => sc.Pushes i ∧ code = .one i
  | change i p, code => i.operands? = some 1 ∧ ∃ a, p.Makes a ∧ code = a ++ .one i
  | combine i p q, code =>
    i.operands? = some 2 ∧ ∃ a b, p.Makes a ∧ q.Makes b ∧ code = a ++ b ++ .one i
  | choose op p q, code => ∃ a b, p.Makes a ∧ q.Makes b ∧ code = a ++ chooseCode op b

/-- Plans are carried out one after the other, and then come a few instructions. -/
def Performs : List Plan → List Instr → Code → Prop
  | [], after, code => code = .ofList after
  | p :: rest, after, code =>
    ∃ a others, p.Makes sc sub a ∧ Performs rest after others ∧ code = a ++ others

end Making

/-! ## Operands -/

/-- Instructions that put a value in the place of another. -/
inductive Adapts : List Instr → Prop
  | none : Adapts []
  | change {i : Instr} (hi : i.operands? = some 1) : Adapts [i]
  | compare {c i : Instr} (hplain : c.isPlain = true) (hc : c.operands? = some 0)
      (hi : i.operands? = some 2) : Adapts [c, i]

theorem Code.append_nil (code : Code) : code ++ .nil = code := by
  have happ : ∀ c d : Code, c ++ d = c.append d := fun _ _ => rfl
  simp only [happ]
  induction code with
  | nil => rfl
  | instr i rest ih => exact congrArg (Code.instr i) ih
  | choose thenCode elseCode rest _ _ ih => exact congrArg (Code.choose thenCode elseCode) ih

section Operand

variable {sc : Scope} {sub : ExprId → Compiled Code} {id : ExprId} {code : Code}

theorem conditionWith_ok (h : conditionWith sc sub id = .ok code) :
    ∃ lane own, sc.laneOf id = .ok lane ∧ sub id = .ok own ∧
      code = own ++ .ofList (if lane.isFloat then [.floatConst (.whole 0), .floatBinary .ne]
        else []) := by
  simp only [conditionWith, bind_ok] at h
  obtain ⟨lane, hlane, own, hown, h⟩ := h
  refine ⟨lane, own, hlane, hown, ?_⟩
  split at h <;> rw [pure_ok] at h <;> subst h
  · next hfloat => rw [if_pos hfloat]
  · next hfloat => rw [if_neg hfloat]; exact (Code.append_nil own).symm

/-- What brings an operand in a lane to a truth value. -/
def Lower.truthCode : Lane → Code
  | .int => .ofList [.intConst 0, .intBinary .ne]
  | .float => .ofList [.floatConst (.whole 0), .floatBinary .ne]
  | .bool => .nil
  | .void => .nil

theorem truthWith_ok (h : truthWith sc sub id = .ok code) :
    ∃ lane own, sc.laneOf id = .ok lane ∧ sub id = .ok own ∧ code = own ++ truthCode lane := by
  simp only [truthWith, bind_ok] at h
  obtain ⟨lane, hlane, inner, hinner, h⟩ := h
  obtain ⟨lane', own, hlane', hown, rfl⟩ := conditionWith_ok hinner
  cases hlane.symm.trans hlane'
  refine ⟨lane, own, hlane, hown, ?_⟩
  cases lane <;> cases h <;> first | rfl | exact congrArg (· ++ _) (Code.append_nil own)

/-- A constant is folded into its lane. Any other operand is lowered and adapted. -/
theorem Want.code_ok {want : Want} (h : want.code sc sub id = .ok code) :
    (∃ c lane, sc.constant? id = some c ∧ code = .one (.constant c lane)) ∨
      ∃ own after, sub id = .ok own ∧ Adapts after ∧ code = own ++ .ofList after := by
  have hsame (h : sub id = .ok code) :
      ∃ own after, sub id = .ok own ∧ Adapts after ∧ code = own ++ .ofList after :=
    ⟨code, [], h, .none, (Code.append_nil code).symm⟩
  cases want with
  | own => exact .inr (hsame h)
  | inLane lane =>
    simp only [Want.code, asLaneWith] at h
    split at h
    · exact .inr (hsame h)
    · split at h
      · next c hc => exact .inl ⟨c, lane, hc, (Except.ok.inj h).symm⟩
      · simp only [bind_ok] at h
        obtain ⟨source, -, own, hown, h⟩ := h
        -- There is one instruction between lanes that differ, and none otherwise.
        split at h <;> rw [pure_ok] at h <;> subst h
        · next i hi => exact .inr ⟨own, [i], hown, .change (Instr.convert_operands hi), rfl⟩
        · exact .inr (hsame hown)
  | condition =>
    obtain ⟨lane, own, -, hown, rfl⟩ := conditionWith_ok h
    refine .inr ⟨own, _, hown, ?_, rfl⟩
    split
    · exact .compare rfl rfl rfl
    · exact .none
  | truth =>
    obtain ⟨lane, own, -, hown, rfl⟩ := truthWith_ok h
    cases lane with
    | int | float => exact .inr ⟨own, _, hown, .compare rfl rfl rfl, rfl⟩
    | bool | void => exact .inr ⟨own, _, hown, .none, rfl⟩

end Operand

/-! ## Rules -/

section Rules

variable (sc : Scope)

/-- The plan for the address of a place in memory, how the place is stored, and the offset. -/
inductive PlaceRule : Expr → Plan → Scalar → Nat → Prop
  /-- A literal index of zero is not lowered. -/
  | first {base position s} (hs : sc.elementScalar base = .ok s)
      (hposition : sc.arena.expr? position = some (.int 0)) :
      PlaceRule (.index base position) (.operand base .own) s 0
  | element {base position s} (hs : sc.elementScalar base = .ok s) :
      PlaceRule (.index base position)
        (.combine (.intBinary .add) (.operand base .own) (.operand position (.inLane .int))) s 0
  | scaled {base position s} (hs : sc.elementScalar base = .ok s) :
      PlaceRule (.index base position)
        (.combine (.intBinary .add) (.operand base .own)
          (.combine (.intBinary .mul) (.operand position (.inLane .int))
            (.push (.intConst s.size)))) s 0
  | member {e base name v layout s} (he : e = .member base name ∨ e = .pointerMember base name)
      (hmember : sc.memberOf base name = .ok (v, layout)) (hs : layout.ty.storage? = some s) :
      PlaceRule e (.push (.get v)) s layout.offset
  | deref {operand s} (hs : sc.elementScalar operand = .ok s) :
      PlaceRule (.unary .deref operand) (.operand operand .own) s 0

/-- A literal pushes itself, or the address of its data. -/
def Scope.literal? (id : ExprId) : Expr → Option Instr
  | .int value => some (.intConst (Instr.wrapped value))
  | .float value => some (.single value)
  | .bool value => some (.intConst (if value then 1 else 0))
  | .char value => some (.intConst value.toNat)
  | .str _ | .array _ _ | .struct _ _ =>
    (sc.info.literals.get? id).map fun address : Nat => .intConst address
  | _ => none

/-- Members that have a local are not read from memory. -/
def Scope.InMemory (e : Expr) : Prop :=
  ∀ base name, e = .member base name → sc.flattenedMember? base name = none

/-- The plan for the value of an expression without an effect of its own. -/
inductive ValueRule (id : ExprId) : Expr → Plan → Prop
  | literal {e i} (hi : sc.literal? id e = some i) : ValueRule id e (.push i)
  | named {name v} (hv : sc.lookup name = .ok v) :
      ValueRule id (.ident name) (.push (.get v))
  | flattened {base name v} (hv : sc.flattenedMember? base name = some v) :
      ValueRule id (.member base name) (.push (.get v))
  | load {e p s offset} (hplace : PlaceRule sc e p s offset) (hmemory : sc.InMemory e) :
      ValueRule id e (.change (.load s offset) p)
  | logical {op left right} (hlogical : op.isLogical = true) :
      ValueRule id (.binary op left right)
        (.choose op (.operand left .truth) (.operand right .truth))
  | binary {op left right leftLane rightLane} (hlogical : op.isLogical = false)
      (hleft : sc.laneOf left = .ok leftLane) (hright : sc.laneOf right = .ok rightLane)
      (hinteger : ((leftLane.isFloat || rightLane.isFloat) && op.isIntegerOnly) = false) :
      ValueRule id (.binary op left right)
        (.combine (.binary op (leftLane.isFloat || rightLane.isFloat))
          (.operand left (.inLane (Scope.promote leftLane rightLane)))
          (.operand right (.inLane (Scope.promote leftLane rightLane))))
  /-- The minus sign of a literal is part of the constant. -/
  | negative {operand c lane} (hc : sc.constant? id = some c)
      (hlane : sc.laneOf operand = .ok lane) :
      ValueRule id (.unary .neg operand) (.push (.constant c lane))
  | negateFloat {operand lane} (hlane : sc.laneOf operand = .ok lane)
      (hfloat : lane.isFloat = true) :
      ValueRule id (.unary .neg operand) (.change .floatNeg (.operand operand .own))
  | negateInt {operand lane} (hlane : sc.laneOf operand = .ok lane)
      (hfloat : lane.isFloat = false) :
      ValueRule id (.unary .neg operand)
        (.combine (.intBinary .sub) (.push (.intConst 0)) (.operand operand (.inLane .int)))
  | not {operand} :
      ValueRule id (.unary .not operand) (.change .intEqz (.operand operand .condition))
  | bitNot {operand} :
      ValueRule id (.unary .bitNot operand)
        (.combine (.intBinary .xor) (.operand operand (.inLane .int)) (.push (.intConst (-1))))

/-- Adds one, or takes it off. -/
def countBy (float : Bool) (op : PostfixOp) : List Instr :=
  match float, op with
  | true, .increment => [.floatConst (.whole 1), .floatBinary .add]
  | true, .decrement => [.floatConst (.whole 1), .floatBinary .sub]
  | false, .increment => [.intConst 1, .intBinary .add]
  | false, .decrement => [.intConst 1, .intBinary .sub]

/-- The plans for an expression with an effect, and the instructions that follow them. With `keep`
there is a value left at the end, if the expression has one. -/
inductive EffectRule (keep : Bool) : Expr → List Plan → List Instr → Prop
  | update {op operand name v set}
      (hoperand : sc.arena.expr? operand = some (.ident name)) (hv : sc.lookup name = .ok v)
      (hset : Instr.set v = .ok set) :
      EffectRule keep (.update op operand) []
        ((if keep then [.get v] else []) ++ .get v :: countBy v.ty.lane.isFloat op ++ [set])
  | call {callee args s} (hs : signatureOf sc callee = .ok s)
      (hlength : args.length = s.paramLanes.length) :
      EffectRule keep (.call callee args)
        ((args.zip s.paramLanes).map fun a => .operand a.1 (.inLane a.2))
        (.call callee :: if keep || s.resultLane = .void then [] else [.drop])
  | assignVariable {target value name v set}
      (htarget : sc.arena.expr? target = some (.ident name)) (hv : sc.lookup name = .ok v)
      (hset : Instr.set v = .ok set) :
      EffectRule keep (.assign target value) [.operand value (.inLane v.ty.lane)]
        (if keep then if v.isLocal then [.localTee v.name] else [set, .get v] else [set])
  | assignFlattened {target value base name v p s offset}
      (htarget : sc.arena.expr? target = some (.member base name))
      (hv : sc.flattenedMember? base name = some v)
      (hplace : PlaceRule sc (.member base name) p s offset) :
      EffectRule keep (.assign target value) [p, .operand value (.inLane v.ty.lane)]
        (.localTee v.name :: .store s offset :: if keep then [.get v] else [])
  | assignPlace {target value e p s offset}
      (htarget : sc.arena.expr? target = some e) (hkeep : keep = false)
      (hplace : PlaceRule sc e p s offset) (hmemory : sc.InMemory e) :
      EffectRule keep (.assign target value) [p, .operand value (.inLane s.lane)] [.store s offset]

end Rules

/-- Does evaluating the node itself, apart from its operands, change anything? -/
def Expr.hasEffect : Expr → Bool
  | .call _ _ => true
  | .update _ _ => true
  | .assign _ _ => true
  | _ => false

section Operands

variable {sc : Scope} {id : ExprId} {e : Expr} {p : Plan} {c : ExprId}

theorem PlaceRule.operands_mem {s : Scalar} {offset : Nat} (h : PlaceRule sc e p s offset)
    (hc : c ∈ p.operands) : c ∈ e.children := by
  cases h with
  | member => cases hc
  | _ => simp_all [Plan.operands]

theorem ValueRule.operands_mem (h : ValueRule sc id e p) (hc : c ∈ p.operands) :
    c ∈ e.children := by
  cases h with
  | load hplace => exact hplace.operands_mem hc
  | _ => simp_all [Plan.operands]

theorem PlaceRule.hasEffect {s : Scalar} {offset : Nat} (h : PlaceRule sc e p s offset) :
    e.hasEffect = false := by
  cases h with
  | member he => rcases he with rfl | rfl <;> rfl
  | _ => rfl

theorem ValueRule.hasEffect (h : ValueRule sc id e p) : e.hasEffect = false := by
  cases h with
  | literal hi => cases e <;> first | rfl | cases hi
  | load hplace => exact hplace.hasEffect
  | _ => rfl

variable {keep : Bool} {values : List Plan} {after : List Instr}

theorem EffectRule.hasEffect (h : EffectRule sc keep e values after) : e.hasEffect = true := by
  cases h <;> rfl

/-- Of the target of an assignment only the operands are lowered. -/
theorem EffectRule.operands_within (h : EffectRule sc keep e values after) (hp : p ∈ values)
    (hc : c ∈ p.operands) : ∃ child ∈ e.children, sc.arena.Within c child := by
  have hplace {target value : ExprId} {e : Expr} {q : Plan} {s : Scalar} {offset : Nat}
    {lane : Lane}
      (htarget : sc.arena.expr? target = some e) (hrule : PlaceRule sc e q s offset)
      (hp : p ∈ [q, .operand value (.inLane lane)]) :
      ∃ child ∈ [target, value], sc.arena.Within c child := by
    rcases List.mem_pair.mp hp with rfl | rfl
    · exact ⟨target, by simp, .operand htarget (hrule.operands_mem hc) .refl⟩
    · exact ⟨value, by simp, List.mem_singleton.mp hc ▸ .refl⟩
  cases h with
  | update => cases hp
  | call hs =>
    obtain ⟨a, ha, rfl⟩ := List.mem_map.mp hp
    exact ⟨a.1, (List.of_mem_zip ha).1, List.mem_singleton.mp hc ▸ .refl⟩
  | @assignVariable target value =>
    cases List.mem_singleton.mp hp
    exact ⟨value, by simp, List.mem_singleton.mp hc ▸ .refl⟩
  | assignFlattened htarget _ hrule => exact hplace htarget hrule hp
  | assignPlace htarget _ hrule => exact hplace htarget hrule hp

end Operands

/-! ## There are no other ways -/

section Lowered

variable {sc : Scope} {sub : ExprId → Compiled Code} {id : ExprId} {e : Expr} {code : Code}

theorem targetPlaceWith_ok {place : Place} (h : targetPlaceWith sc sub e = .ok place) :
    ∃ p, PlaceRule sc e p place.scalar place.offset ∧ p.Makes sc sub place.address := by
  cases e with
  | index base position =>
    simp only [targetPlaceWith, elementWith, bind_ok] at h
    obtain ⟨s, hs, own, hown, e, he, h⟩ := h
    split at h
    · rw [pure_ok] at h
      subst h
      exact ⟨_, .first hs (Scope.expr_eq_ok.mp he), hown⟩
    · simp only [bind_ok, pure_ok] at h
      obtain ⟨index, hindex, rfl⟩ := h
      -- Elements of one byte need no multiplication.
      by_cases hsize : s.size = 1
      · refine ⟨_, .element hs, rfl, own, index, hown, hindex, ?_⟩
        simp only [scaleIndex, if_pos hsize]
      · refine ⟨_, .scaled hs, rfl, own, _, hown,
          ⟨rfl, index, _, hindex, ⟨.plain rfl rfl, rfl⟩, rfl⟩, ?_⟩
        simp only [scaleIndex, if_neg hsize, Code.append_assoc]
        rfl
  | member base name =>
    obtain ⟨v, layout, s, hmember, hs, rfl⟩ := memberPlace_ok h
    obtain ⟨x, -, -, -, hv, -⟩ := Scope.memberOf_ok hmember
    exact ⟨_, .member (.inl rfl) hmember hs, .named hv, rfl⟩
  | pointerMember base name =>
    obtain ⟨v, layout, s, hmember, hs, rfl⟩ := memberPlace_ok h
    obtain ⟨x, -, -, -, hv, -⟩ := Scope.memberOf_ok hmember
    exact ⟨_, .member (.inr rfl) hmember hs, .named hv, rfl⟩
  | unary op operand =>
    cases op with
    | deref =>
      simp only [targetPlaceWith, bind_ok, pure_ok] at h
      obtain ⟨s, hs, own, hown, rfl⟩ := h
      exact ⟨_, .deref hs, hown⟩
    | _ => cases h
  | _ => cases h

theorem load_ok {place : Place} (h : targetPlaceWith sc sub e = .ok place)
    (hmemory : sc.InMemory e) : ∃ p, ValueRule sc id e p ∧ p.Makes sc sub place.load := by
  obtain ⟨p, hplace, hp⟩ := targetPlaceWith_ok h
  exact ⟨_, .load hplace hmemory, rfl, _, hp, rfl⟩

theorem binaryWith_ok {op : BinaryOp} {left right : ExprId}
    (h : binaryWith sc sub op left right = .ok code) :
    ∃ p, ValueRule sc id (.binary op left right) p ∧ p.Makes sc sub code := by
  unfold binaryWith at h
  split at h
  · next hlogical =>
    simp only [logicalWith, bind_ok] at h
    obtain ⟨first, hfirst, second, hsecond, h⟩ := h
    refine ⟨_, .logical hlogical, first, second, hfirst, hsecond, ?_⟩
    unfold chooseCode
    split at h <;> rw [pure_ok] at h <;> subst h
    · next hand => rw [if_pos hand]
    · next hor => rw [if_neg hor]
  · next hlogical =>
    simp only [bind_ok] at h
    obtain ⟨leftLane, hleft, rightLane, hright, h⟩ := h
    split at h
    · cases h
    · next hinteger =>
      simp only [bind_ok, pure_ok] at h
      obtain ⟨first, hfirst, second, hsecond, rfl⟩ := h
      rw [Bool.not_eq_true] at hlogical hinteger
      exact ⟨_, .binary hlogical hleft hright hinteger, Instr.binary_operands hlogical hinteger,
        first, second, hfirst, hsecond, rfl⟩

theorem negateWith_ok {operand : ExprId} (he : sc.arena.expr? id = some (.unary .neg operand))
    (h : negateWith sc sub id operand = .ok code) :
    ∃ p, ValueRule sc id (.unary .neg operand) p ∧ p.Makes sc sub code := by
  unfold negateWith at h
  cases hc : sc.constant? id with
  | some c =>
    -- Only the negative of a number is folded, and it stays in the lane of the number.
    have hnumber : ∃ lane, sc.laneOf operand = .ok lane ∧ code = .one (.constant c lane) := by
      rw [hc] at h
      have hfold := hc
      simp only [Scope.constant?, Constant.ofExpr?, he] at hfold
      cases ho : sc.arena.expr? operand with
      | none => simp [ho] at hfold
      | some e =>
        cases e <;> simp only [ho, reduceCtorEq, Option.some.injEq] at hfold <;> subst hfold <;>
          cases h <;> exact ⟨_, Scope.laneOf_literal ho rfl, rfl⟩
    obtain ⟨lane, hlane, rfl⟩ := hnumber
    obtain ⟨hplain, hi⟩ := Instr.constant_shape c lane
    exact ⟨_, .negative hc hlane, .plain hplain hi, rfl⟩
  | none =>
    simp only [hc, bind_ok] at h
    obtain ⟨lane, hlane, h⟩ := h
    split at h <;> simp only [bind_ok, pure_ok] at h <;> obtain ⟨own, hown, rfl⟩ := h
    · next hfloat => exact ⟨_, .negateFloat hlane hfloat, rfl, own, hown, rfl⟩
    · next hfloat =>
      exact ⟨_, .negateInt hlane (Bool.eq_false_iff.mpr hfloat), rfl, _, own,
        ⟨.plain rfl rfl, rfl⟩, hown, rfl⟩

theorem unaryWith_ok {op : PrefixOp} {operand : ExprId}
    (he : sc.arena.expr? id = some (.unary op operand))
    (h : unaryWith sc sub id op operand = .ok code) :
    ∃ p, ValueRule sc id (.unary op operand) p ∧ p.Makes sc sub code := by
  cases op with
  | neg => exact negateWith_ok he h
  | not =>
    simp only [unaryWith, bind_ok, pure_ok] at h
    obtain ⟨own, hown, rfl⟩ := h
    exact ⟨_, .not, rfl, own, hown, rfl⟩
  | bitNot =>
    simp only [unaryWith, bind_ok, pure_ok] at h
    obtain ⟨own, hown, rfl⟩ := h
    exact ⟨_, .bitNot, rfl, own, _, hown, ⟨.plain rfl rfl, rfl⟩,
      (Code.append_assoc own (.one (.intConst (-1))) (.one (.intBinary .xor))).symm⟩
  | deref =>
    simp only [unaryWith, bind_ok, pure_ok] at h
    obtain ⟨s, hs, own, hown, rfl⟩ := h
    exact ⟨_, .load (.deref hs) (fun _ _ h => by cases h), rfl, own, hown, rfl⟩

theorem member_ok {base : ExprId} {name : String} (h : member sc base name true = .ok code) :
    ∃ p, ValueRule sc id (.member base name) p ∧ p.Makes sc sub code := by
  simp only [member, if_true] at h
  split at h
  · next v hv =>
    cases h
    exact ⟨_, .flattened hv, .flattened hv, rfl⟩
  · next hnone =>
    simp only [bind_ok, pure_ok] at h
    obtain ⟨place, hplace, rfl⟩ := h
    exact load_ok hplace (by rintro _ _ ⟨⟩; exact hnone)

theorem update_ok {op : PostfixOp} {operand : ExprId} {keep : Bool}
    (h : update sc op operand keep = .ok code) :
    ∃ values after, EffectRule sc keep (.update op operand) values after ∧
      Performs sc sub values after code := by
  simp only [update, bind_ok] at h
  obtain ⟨e, he, h⟩ := h
  cases e with
  | ident name =>
    simp only [bind_ok, pure_ok] at h
    obtain ⟨v, hv, set, hset, rfl⟩ := h
    refine ⟨_, _, .update (Scope.expr_eq_ok.mp he) hv hset, ?_⟩
    cases v.ty.lane.isFloat <;> cases op <;> rfl
  | _ => cases h

theorem argumentsWith_ok {args : List (ExprId × Lane)} (after : List Instr)
    (h : argumentsWith sc sub args = .ok code) :
    Performs sc sub (args.map fun a => .operand a.1 (.inLane a.2)) after
      (code ++ .ofList after) := by
  induction args generalizing code with
  | nil =>
    cases h
    rfl
  | cons a rest ih =>
    simp only [argumentsWith, bind_ok, pure_ok] at h
    obtain ⟨first, hfirst, others, hothers, rfl⟩ := h
    exact ⟨first, _, hfirst, ih hothers, Code.append_assoc _ _ _⟩

theorem assignWith_ok {target value : ExprId} {keep : Bool}
    (h : assignWith sc sub target value keep = .ok code) :
    ∃ values after, EffectRule sc keep (.assign target value) values after ∧
      Performs sc sub values after code := by
  simp only [assignWith, bind_ok] at h
  obtain ⟨e, he, h⟩ := h
  rw [Scope.expr_eq_ok] at he
  -- Two of the cases end up here: members that are not flattened, and all other places.
  have hplace (hmemory : sc.InMemory e) (h : assignPlaceWith sc sub e value keep = .ok code) :
      ∃ values after, EffectRule sc keep (.assign target value) values after ∧
        Performs sc sub values after code := by
    cases keep with
    | true => cases h
    | false =>
      simp only [assignPlaceWith, Bool.false_eq_true, if_false, bind_ok, pure_ok] at h
      obtain ⟨place, hplace, own, hown, rfl⟩ := h
      obtain ⟨p, hrule, hp⟩ := targetPlaceWith_ok hplace
      exact ⟨_, _, .assignPlace he rfl hrule hmemory, _, _, hp, ⟨_, _, hown, rfl, rfl⟩,
        Code.append_assoc _ _ _⟩
  split at h
  · simp only [assignVariableWith, bind_ok] at h
    obtain ⟨v, hv, set, hset, own, hown, h⟩ := h
    refine ⟨_, _, .assignVariable he hv hset, own, _, hown, rfl, ?_⟩
    cases keep with
    | false =>
      cases h
      rfl
    | true =>
      simp only [if_true] at h ⊢
      split at h <;> rw [pure_ok] at h <;> subst h
      · next hlocal => rw [if_pos hlocal]; rfl
      · next hlocal => rw [if_neg hlocal]
  · next base name =>
    split at h
    · next v hv =>
      simp only [assignFlattenedWith, bind_ok, pure_ok] at h
      obtain ⟨place, hmember, own, hown, rfl⟩ := h
      have hmember : targetPlaceWith sc sub (.member base name) = .ok place := hmember
      obtain ⟨p, hrule, hp⟩ := targetPlaceWith_ok hmember
      exact ⟨_, _, .assignFlattened he hv hrule, _, _, hp, ⟨_, _, hown, rfl, rfl⟩,
        Code.append_assoc _ _ _⟩
    · next hnone => exact hplace (by rintro _ _ ⟨⟩; exact hnone) h
  · next hmember => exact hplace (fun base name hbase => absurd hbase (hmember base name)) h

/-- One step of lowering. -/
theorem lowerStep_ok (h : lowerStep sc id sub = .ok code) :
    ∃ e, sc.arena.expr? id = some e ∧
      ((∃ p, ValueRule sc id e p ∧ p.Makes sc sub code) ∨
        ∃ values after, EffectRule sc true e values after ∧ Performs sc sub values after code) := by
  unfold lowerStep at h
  obtain ⟨e, he, h⟩ := bind_ok.mp h
  rw [Scope.expr_eq_ok] at he
  refine ⟨e, he, ?_⟩
  cases e with
  | int | float | bool | char =>
    cases h
    exact .inl ⟨_, .literal rfl, .plain rfl rfl, rfl⟩
  | str | array | struct =>
    cases haddress : sc.info.literals.get? id with
    | none => simp only [haddress] at h; cases h
    | some address =>
      simp only [haddress, pure_ok] at h
      subst h
      refine .inl ⟨.push (.intConst address), .literal ?_, .plain rfl rfl, rfl⟩
      simp only [Scope.literal?, haddress, Option.map_some]
  | ident name =>
    simp only [bind_ok, pure_ok] at h
    obtain ⟨v, hv, rfl⟩ := h
    exact .inl ⟨_, .named hv, .named hv, rfl⟩
  | binary op left right => exact .inl (binaryWith_ok h)
  | unary op operand => exact .inl (unaryWith_ok he h)
  | index base position =>
    simp only [bind_ok, pure_ok] at h
    obtain ⟨place, hplace, rfl⟩ := h
    exact .inl (load_ok hplace fun _ _ h => by cases h)
  | member base name => exact .inl (member_ok h)
  | pointerMember base name =>
    simp only [member, Bool.false_eq_true, if_false, bind_ok, pure_ok] at h
    obtain ⟨place, hplace, rfl⟩ := h
    exact .inl (load_ok (e := .pointerMember base name) hplace fun _ _ h => by cases h)
  | update op operand => exact .inr (update_ok h)
  | call callee args =>
    simp only [bind_ok, pure_ok] at h
    obtain ⟨r, hr, rfl⟩ := h
    obtain ⟨s, own, hs, hlength, hown, rfl⟩ := callWith_ok hr
    exact .inr ⟨_, _, .call hs hlength, argumentsWith_ok _ hown⟩
  | assign target value => exact .inr (assignWith_ok h)

/-- An expression for its effect. One that has none is lowered all the same, and its value
dropped. -/
theorem discard_ok (h : discard sc id = .ok code) :
    ∃ e, sc.arena.expr? id = some e ∧
      ((∃ values after, EffectRule sc false e values after ∧
          Performs sc (lower sc) values after code) ∨
        e.hasEffect = false ∧ ∃ lane own, sc.laneOf id = .ok lane ∧ lower sc id = .ok own ∧
          code = dropValue own lane) := by
  unfold Lower.discard at h
  obtain ⟨e, he, h⟩ := bind_ok.mp h
  rw [Scope.expr_eq_ok] at he
  refine ⟨e, he, ?_⟩
  cases e with
  | assign target value => exact .inl (assignWith_ok h)
  | update op operand => exact .inl (update_ok h)
  | call callee args =>
    simp only [bind_ok, pure_ok] at h
    obtain ⟨r, hr, rfl⟩ := h
    obtain ⟨s, own, hs, hlength, hown, rfl⟩ := callWith_ok hr
    refine .inl ⟨_, _, .call hs hlength, ?_⟩
    -- What the rule has as one list of instructions was put together from two pieces.
    have hcode : dropValue (own ++ .one (.call callee)) s.resultLane =
        own ++ .ofList (.call callee ::
          if false || s.resultLane = .void then [] else [.drop]) := by
      unfold dropValue
      by_cases hvoid : s.resultLane = .void
      · simp [hvoid]
        rfl
      · simp [hvoid, Code.append_assoc]
        rfl
    rw [hcode]
    exact argumentsWith_ok _ hown
  | _ =>
    simp only [bind_ok, pure_ok] at h
    obtain ⟨lane, hlane, own, hown, rfl⟩ := h
    exact .inr ⟨rfl, lane, own, hlane, hown, rfl⟩

/-- What a rule keeps, if the code of subexpressions has it, holds of all lowered code. -/
theorem lower_induction {P : ExprId → Code → Prop}
    (hstep : ∀ id sub code, (∀ child own, sub child = .ok own → P child own) →
      lowerStep sc id sub = .ok code → P id code) (h : lower sc id = .ok code) : P id code := by
  refine descend_induction (P := fun (id : ExprId) (x : Compiled Code) =>
    ∀ code, x = .ok code → P id code) ?_ (fun id sub hsub code => hstep id sub code hsub) id code h
  intro _ _ _ hguard
  cases hguard

end Lowered

end WasmBackend
