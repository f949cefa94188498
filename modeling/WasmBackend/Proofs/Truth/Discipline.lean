import WasmBackend.Proofs.Stack.Rules
import WasmBackend.Proofs.Truth.Logical

/-!
# Expressions that keep booleans zero or one

Nothing in the language keeps a boolean variable zero or one: `let b: bool = 5` is lowered as it
stands. What does is a discipline that can be checked node by node (`Scope.keepsBits`): boolean
variables and parameters are given only values whose form makes them bits, they are not counted up
or down, and neither is the right operand of a logical operator a boolean of any other form. Loads
are not of that form, since memory is open to stores of all widths.

Here are the discipline and what it makes of operands. The rules of lowering are gone through in
`Truth.Expressions`.
-/

namespace WasmBackend

open Compiled Lower

/-! ## The discipline -/

/-- A boolean in a register. -/
def Variable.isBit (v : Variable) : Bool :=
  match v.scope with
  | .localVar => v.ty.lane == .bool
  | .param => v.ty.lane == .bool
  | .global => v.ty.lane == .bool
  | _ => false

theorem Variable.isBit_lane {v : Variable} (h : v.isBit = true) : v.ty.lane = .bool := by
  obtain ⟨name, scope, ty⟩ := v
  cases scope <;> simp_all [isBit]

namespace Scope

variable (sc : Scope)

/-- Booleans in registers are assumed to hold bits. A function whose result is a boolean gives one
if it is given bits for its boolean parameters. -/
def bits : BitContext where
  locals x := sc.frame.any fun f =>
    (f.locals.get? x).any Variable.isBit || (f.params.get? x).any Variable.isBit
  globals x := (sc.lookupGlobal x).toOption.any Variable.isBit
  functions callee := (signatureOf sc callee).toOption.bind fun s =>
    if s.params.all (· ≠ .void) then
      some ((s.paramLanes.map (· == .bool)).reverse,
        (s.resultLane.valType?.map fun _ => s.resultLane == .bool).toList)
    else none

/-- The variable that an expression reads and that an assignment to it writes. -/
def denoted? (id : ExprId) : Option Variable :=
  match sc.arena.expr? id with
  | some (.ident name) => (sc.lookup name).toOption
  | some (.member base name) => sc.flattenedMember? base name
  | _ => none

/-- The value is a bit if boolean variables hold bits. -/
def bitForm (id : ExprId) : Bool :=
  (sc.laneOf id).toOption.any (!·.isFloat) &&
    match sc.arena.expr? id with
    | some (.bool _) => true
    | some (.binary op _ _) => op.isComparison || op.isLogical
    | some (.unary .not _) => true
    | some (.call callee _) => (signatureOf sc callee).toOption.any (·.resultLane == .bool)
    | some (.assign target _) => (sc.denoted? target).any Variable.isBit
    | _ => (sc.denoted? id).any Variable.isBit

/-- The value is a bit when it is wanted as a boolean. -/
def givesBit (id : ExprId) : Bool :=
  match sc.constant? id with
  | some c => Instr.wrapped c.toInt64 == 0 || Instr.wrapped c.toInt64 == 1
  | none => sc.bitForm id

/-- What the node asks of its operands. -/
def keepsBits (id : ExprId) : Bool :=
  match sc.arena.expr? id with
  | some (.binary op _ right) =>
    !op.isLogical || (sc.laneOf right).toOption.any (fun lane => lane == .int || lane == .float) ||
      sc.bitForm right
  | some (.assign target value) => !(sc.denoted? target).any Variable.isBit || sc.givesBit value
  | some (.update _ operand) => !(sc.denoted? operand).any Variable.isBit
  | some (.call callee args) =>
    (signatureOf sc callee).toOption.any fun s => s.params.all (· ≠ .void) &&
      (args.zip s.paramLanes).all fun a => a.2 != .bool || sc.givesBit a.1
  | _ => true

/-- All nodes of the expression are as they should be, and it has a value everywhere. -/
structure Tidy (id : ExprId) : Prop where
  keeps : ∀ inner, sc.arena.Within inner id → sc.keepsBits inner = true
  values : sc.NoVoidCall id

/-- The same of an expression whose own value, if it has one, is dropped. -/
structure TidyEffect (id : ExprId) : Prop where
  keeps : ∀ inner, sc.arena.Within inner id → sc.keepsBits inner = true
  values : ∀ e, sc.arena.expr? id = some e → ∀ child ∈ e.children, sc.NoVoidCall child

end Scope

/-! ## Variables -/

/-- Code finds a bit in the variable and may put only a bit into it, if it is a boolean. -/
structure Scope.Keeps (sc : Scope) (v : Variable) : Prop where
  get : ∃ flag, sc.bits.type? (.get v) = some ([], [flag]) ∧ (v.isBit = true → flag = true)
  set : ∀ i, Instr.set v = .ok i → sc.bits.type? i = some ([v.isBit], [])
  tee : v.isLocal = true → sc.bits.type? (.localTee v.name) = some ([v.isBit], [v.isBit])

/-- All variables that code can name are kept to bits where they are booleans. -/
structure Scope.AllKept (sc : Scope) : Prop where
  lookup : ∀ name v, sc.lookup name = .ok v → sc.Keeps v
  flattened : ∀ base member v, sc.flattenedMember? base member = some v →
    sc.Keeps v ∧ v.isLocal = true

section Lookup

variable {info : ModuleInfo} {arena : Arena} {f : Frame} (hf : f.WellFormed)
variable {name : String} {v : Variable}

theorem keeps_of_local {sc : Scope} (hlocal : v.isLocal = true)
    (h : sc.bits.locals v.name = v.isBit) : sc.Keeps v := by
  obtain ⟨name, scope, ty⟩ := v
  cases scope with
  | localVar | param =>
    refine ⟨⟨_, rfl, fun hbit => h.trans hbit⟩, fun i hi => ?_, fun _ => ?_⟩
    · cases hi
      simp only [BitContext.type?, h]
    · simp only [BitContext.type?, h]
  | _ => cases hlocal

theorem keeps_of_global {sc : Scope} {ty : Ty}
    (h : sc.lookupGlobal name = .ok ⟨name, .global, ty⟩) : sc.Keeps ⟨name, .global, ty⟩ := by
  have hglobal : sc.bits.globals name = Variable.isBit ⟨name, .global, ty⟩ := by
    simp [Scope.bits, h, Except.toOption]
  refine ⟨⟨_, rfl, fun hbit => hglobal.trans hbit⟩, fun i hi => ?_, fun h => by cases h⟩
  cases hi
  simp only [BitContext.type?, hglobal]

include hf

/-- No parameter has the name of a local. -/
theorem bits_locals (h : f.locals.get? name = some v) :
    (Scope.bits ⟨info, arena, some f⟩).locals name = v.isBit := by
  have hparam : f.params.get? name = none := by
    rw [← Table.contains_eq_false]
    cases hc : f.params.contains name with
    | false => rfl
    | true =>
      rw [hf.disjoint _ hc] at h
      cases h
  simp [Scope.bits, h, hparam]

theorem lookup_keeps (h : Scope.lookup ⟨info, arena, some f⟩ name = .ok v) :
    Scope.Keeps ⟨info, arena, some f⟩ v := by
  cases hf.means h with
  | localVar hget => exact keeps_of_local rfl (bits_locals hf hget)
  | param hget =>
    have hnone : f.locals.get? name = none := hf.disjoint _ (by simp [Table.contains, hget])
    exact keeps_of_local rfl (by simp [Scope.bits, hget, hnone])
  | register hg hs => exact keeps_of_global (by simp [Scope.lookupGlobal, hg, hs])
  | memory hg hs =>
    exact ⟨⟨_, rfl, fun h => (by cases h)⟩, fun i hi => (by cases hi), fun h => (by cases h)⟩
  | @imported i ty inMemory hg hi hd =>
    cases inMemory with
    | false =>
      refine keeps_of_global ?_
      simp only [Scope.lookupGlobal, hg, hi, ImportEntry.resolved, hd]
      rfl
    | true =>
      exact ⟨⟨_, rfl, fun h => (by cases h)⟩, fun i hi => (by cases hi), fun h => (by cases h)⟩

/-- Whatever variable an expression denotes is used as the discipline says. -/
theorem Frame.WellFormed.allKept : Scope.AllKept ⟨info, arena, some f⟩ := by
  refine ⟨fun name v => lookup_keeps hf, fun base member v hv => ?_⟩
  unfold Scope.flattenedMember? at hv
  split at hv
  · obtain ⟨hlocal, hlookup⟩ := flattened?_lookup hf hv
    exact ⟨lookup_keeps hf hlookup, hlocal⟩
  · cases hv

end Lookup

/-! ## Code that leaves one value -/

/-- Whatever is known of the stack, the code leaves one word on top of it, and it is a bit if
flagged. -/
def BitContext.Leaves (Δ : BitContext) (code : Code) (flag : Bool) : Prop :=
  ∀ flags, Δ.check code flags = some (flag :: flags)

namespace BitContext.Leaves

variable {Δ : BitContext} {a b : Code} {x y r : Bool} {i : Instr}

theorem one (hi : Δ.type? i = some ([], [r])) : Δ.Leaves (.one i) r := by
  intro flags
  simp [step, hi, pop]

theorem unary (ha : Δ.Leaves a x) (hi : Δ.type? i = some ([false], [r])) :
    Δ.Leaves (a ++ .one i) r := by
  intro flags
  simp [check_append, ha flags, step, hi, pop]

theorem binary (ha : Δ.Leaves a x) (hb : Δ.Leaves b y)
    (hi : Δ.type? i = some ([false, false], [r])) : Δ.Leaves (a ++ b ++ .one i) r := by
  intro flags
  simp [check_append, ha flags, hb (x :: flags), step, hi, pop]

/-- An operator whose second operand is a constant. -/
theorem withConst {c : Instr} (ha : Δ.Leaves a x) (hc : Δ.type? c = some ([], [y]))
    (hi : Δ.type? i = some ([false, false], [r])) : Δ.Leaves (a ++ .ofList [c, i]) r := by
  have hboth := ha.binary (one hc) hi
  rw [Code.append_assoc] at hboth
  exact hboth

theorem choose {c : Code} (hc : Δ.Leaves c x) (ha : Δ.Leaves a true) (hb : Δ.Leaves b true) :
    Δ.Leaves (c ++ .ifElse a b) true := by
  intro flags
  simp [check_append, hc flags, Code.ifElse, check, ha [], hb []]

/-- Puts the value into a variable, which may ask for a bit. -/
theorem stored {want : Bool} (ha : Δ.Leaves a x) (hx : want = true → x = true)
    {gives : List Bool} (hi : Δ.type? i = some ([want], gives)) (flags : List Bool) :
    Δ.check (a ++ .one i) flags = some (gives ++ flags) := by
  have hwant : (!want || x) = true := by
    cases want with
    | false => rfl
    | true => simp [hx rfl]
  simp [check_append, ha flags, step, hi, pop, hwant]

/-- Puts the value into a variable and goes on. -/
theorem storedThen {want : Bool} (ha : Δ.Leaves a x) (hx : want = true → x = true)
    {gives : List Bool} (hi : Δ.type? i = some ([want], gives)) (rest : List Instr)
    (flags : List Bool) :
    Δ.check (a ++ .ofList (i :: rest)) flags = Δ.check (.ofList rest) (gives ++ flags) := by
  rw [show Code.ofList (i :: rest) = .one i ++ Code.ofList rest from rfl, ← Code.append_assoc,
    check_append, ha.stored hx hi]
  rfl

end BitContext.Leaves

/-! ## Operands -/

/-- The code leaves one value, a bit if the form of the expression says so. -/
def Scope.Yields (sc : Scope) (id : ExprId) (code : Code) : Prop :=
  ∃ flag, sc.bits.Leaves code flag ∧ (sc.bitForm id = true → flag = true)

theorem Scope.bitForm_lane {sc : Scope} {id : ExprId} (h : sc.bitForm id = true) {lane : Lane}
    (hlane : sc.laneOf id = .ok lane) : lane.isFloat = false := by
  simp only [bitForm, hlane, Except.toOption, Option.any_some, Bool.and_eq_true,
    Bool.not_eq_true'] at h
  exact h.1

theorem constant_leaves_flag (Δ : BitContext) (c : Constant) (lane : Lane) :
    ∃ flag, Δ.Leaves (.one (.constant c lane)) flag ∧ (lane = .bool →
      (Instr.wrapped c.toInt64 == 0 || Instr.wrapped c.toInt64 == 1) = true → flag = true) := by
  unfold Instr.constant
  cases lane with
  | float => exact ⟨false, .one rfl, fun h => by cases h⟩
  | int | bool | void => exact ⟨_, .one rfl, fun _ h => h⟩

section Operand

variable {sc : Scope} {sub : ExprId → Compiled Code} {id : ExprId} {code : Code}
variable (hsub : ∀ code, sub id = .ok code → sc.Yields id code)

include hsub

theorem asLaneWith_yields {lane : Lane} (h : asLaneWith sc sub id lane = .ok code) :
    ∃ flag, sc.bits.Leaves code flag ∧
      (lane = .bool → sc.givesBit id = true → flag = true) := by
  unfold asLaneWith at h
  split at h
  · next hvoid =>
    obtain ⟨flag, hflag, -⟩ := hsub code h
    exact ⟨flag, hflag, fun hbool => by simp [hvoid] at hbool⟩
  · split at h
    · next c hc =>
      cases h
      simpa only [Scope.givesBit, hc] using constant_leaves_flag sc.bits c lane
    · next hc =>
      simp only [bind_ok] at h
      obtain ⟨source, hsource, own, hown, h⟩ := h
      obtain ⟨flag, hflag, hform⟩ := hsub own hown
      simp only [Scope.givesBit, hc]
      split at h <;> rw [pure_ok] at h <;> subst h
      · next i hi =>
        -- What is converted is not of the form of a bit.
        have htype : sc.bits.type? i = some ([false], [false]) := by
          unfold Instr.convert? at hi
          split at hi <;> cases hi <;> rfl
        refine ⟨false, hflag.unary htype, fun hbool hbit => ?_⟩
        have hfloat := Scope.bitForm_lane hbit hsource
        simp [Instr.convert?, hfloat, hbool] at hi
      · exact ⟨flag, hflag, fun _ => hform⟩

theorem conditionWith_yields (h : conditionWith sc sub id = .ok code) :
    ∃ flag, sc.bits.Leaves code flag := by
  simp only [conditionWith, bind_ok] at h
  obtain ⟨lane, -, own, hown, h⟩ := h
  obtain ⟨flag, hflag, -⟩ := hsub own hown
  split at h <;> rw [pure_ok] at h <;> subst h
  · exact ⟨_, hflag.withConst rfl rfl⟩
  · exact ⟨flag, hflag⟩

theorem truthWith_yields (h : truthWith sc sub id = .ok code) :
    ∃ flag, sc.bits.Leaves code flag ∧
      ((sc.laneOf id).toOption.any (fun lane => lane == .int || lane == .float) ||
        sc.bitForm id → flag = true) := by
  obtain ⟨lane, own, hlane, hown, rfl⟩ := truthWith_ok h
  obtain ⟨flag, hflag, hform⟩ := hsub own hown
  simp only [hlane, Except.toOption, Option.any_some, Bool.or_eq_true, beq_iff_eq]
  cases lane with
  | int => exact ⟨true, hflag.withConst rfl rfl, fun _ => rfl⟩
  | float => exact ⟨true, hflag.withConst rfl rfl, fun _ => rfl⟩
  | bool | void =>
    rw [truthCode, Code.append_nil]
    exact ⟨flag, hflag, fun hor => hform (by simpa using hor)⟩

end Operand

/-! ## Operators -/

/-- An operator gives a bit if it compares. -/
theorem Instr.binary_flags (Δ : BitContext) {op : BinaryOp} {float : Bool}
    (hlogical : op.isLogical = false) (hint : (float && op.isIntegerOnly) = false) :
    Δ.type? (Instr.binary op float) = some ([false, false], [op.isComparison]) := by
  cases float with
  | false => cases op <;> rfl
  | true =>
    cases op <;> first | rfl | exact absurd hlogical (by decide) | exact absurd hint (by decide)

end WasmBackend
