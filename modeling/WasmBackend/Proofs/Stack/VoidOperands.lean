import WasmBackend.Proofs.Control.Pieces
import WasmBackend.Proofs.Scoping.Locals
import WasmBackend.Proofs.Stack.Heights
import WasmBackend.Proofs.Truth.Bodies

/-!
# Calls without a result as operands

The two ways to want a value do not ask whether there is one. An operand in the void lane is lowered
as it is, so that a call without a result is accepted as an operand, an argument, a condition, an
assigned value or a returned value. Only a `let` refuses it, if it has no type of its own.

It is found out when the code is validated. Every piece of code starts on an empty stack, and in a
function whose pieces all leave what is taken from them (`Body.Checked`) no call without a result is
used as a value anywhere. The target itself asks a little less: behind a jump, where code is never
reached, it takes missing values to be there.
-/

namespace WasmBackend

open Compiled Lower StackContext

/-! ## The void lane -/

namespace Scope

/-- Is this a call without a result, or an assignment of one? -/
def valueless (sc : Scope) : ExprId → Bool :=
  descend (fun _ _ => false) fun id sub =>
    match sc.arena.expr? id with
    | some (.assign _ value) => sub value
    | some e => sc.callsVoid e
    | none => false

section

variable {sc : Scope} {id : ExprId} {e : Expr}

theorem valueless_assign (harena : sc.arena.Descending) {target value : ExprId}
    (he : sc.arena.expr? id = some (.assign target value)) :
    sc.valueless id = sc.valueless value := by
  rw [valueless, descend_eq, ← valueless]
  simp only [he, if_pos (harena id _ he value (by simp))]

theorem valueless_eq (he : sc.arena.expr? id = some e)
    (hassign : ∀ target value, e ≠ .assign target value) :
    sc.valueless id = sc.callsVoid e := by
  rw [valueless, descend_eq]
  cases e with
  | assign target value => exact absurd rfl (hassign target value)
  | _ => simp only [he]

/-- What is lowered in place of a constant is not in the void lane. -/
theorem constant_ne_void (harena : sc.arena.Descending) (h : (sc.constant? id).isSome = true)
    {lane : Lane} (hlane : sc.laneOf id = .ok lane) : lane ≠ .void := by
  obtain ⟨e, _, he, hliteral⟩ | ⟨operand, e, _, he, -, -⟩ := constant?_literal h
  · cases (laneOf_literal he hliteral).symm.trans hlane
    cases e <;> cases hliteral <;> simp
  · rw [laneOf_eq harena he] at hlane
    simp only [laneOfStep, expr_eq_ok.mpr he, ok_bind, bind_ok,
      pure_ok] at hlane
    obtain ⟨operandLane, -, rfl⟩ := hlane
    split <;> simp

/-- An expression without a value is in the void lane, whatever is in scope. -/
theorem laneOf_of_valueless (harena : sc.arena.Descending)
    (hparams : ∀ callee s, signatureOf sc callee = .ok s → ∀ lane ∈ s.paramLanes, lane ≠ .void)
    {lane : Lane} (h : sc.valueless id = true) (hlane : sc.laneOf id = .ok lane) :
    lane = .void := by
  refine laneOf_induction harena
    (P := fun id => sc.valueless id = true → lane = .void) ?_ ?_ hlane h
  · intro id target value he
    rw [valueless_assign harena he]
    exact fun hvalue => hvalue
  · intro id e he hassign hlane h
    rw [valueless_eq he hassign] at h
    cases e with
    | call callee args =>
      rw [laneOf_call he] at hlane
      obtain ⟨s, hs⟩ := signatureOf_of_callLane hlane
      exact (callLane_eq_void_iff hlane hs (hparams callee s hs)).mpr ((callsVoid_iff hs).mp h)
    | _ => cases h

variable (harena : sc.arena.Descending) (hdecl : sc.WellDeclared) (hnv : sc.NonVoid)
include harena hdecl hnv

theorem laneOf_eq_void_iff {lane : Lane} (hlane : sc.laneOf id = .ok lane) :
    lane = .void ↔ sc.valueless id = true := by
  refine ⟨?_, fun h => laneOf_of_valueless harena (fun _ _ => hnv.paramLanes_ne_void) h hlane⟩
  refine laneOf_induction harena (P := fun id => lane = .void → sc.valueless id = true) ?_ ?_ hlane
  · intro id target value he
    rw [valueless_assign harena he]
    exact fun hvalue => hvalue
  · intro id e he hassign hlane hvoid
    rw [valueless_eq he hassign]
    cases e with
    | call callee args =>
      rw [laneOf_call he] at hlane
      obtain ⟨s, hs⟩ := signatureOf_of_callLane hlane
      rw [callsVoid_iff hs]
      exact (callLane_eq_void_iff hlane hs (hnv.paramLanes_ne_void hs)).mp hvoid
    | _ => exact absurd hvoid (laneOf_plain_ne_void harena hdecl hnv he (by simp) hassign hlane)

end

end Scope

section Coercions

variable {sc : Scope} {id : ExprId} (hvoid : sc.laneOf id = .ok .void)
include hvoid

/-- An operand in the void lane is lowered as it is, and taken for an integer. -/
theorem asLane_of_void (harena : sc.arena.Descending) {lane : Lane} (hlane : lane ≠ .void) :
    asLane sc id lane = (lower sc id).map fun code =>
      if lane.isFloat then code ++ .one .floatOfInt else code := by
  have hconstant : sc.constant? id = none := by
    cases hc : sc.constant? id with
    | none => rfl
    | some c => exact absurd rfl (sc.constant_ne_void harena (by rw [hc]; rfl) hvoid)
  simp only [asLane, asLaneWith, if_neg hlane, hconstant, hvoid, ok_bind]
  cases lower sc id with
  | error e => rfl
  | ok code => cases lane <;> rfl

theorem condition_of_void : condition sc id = lower sc id := by
  simp only [condition, conditionWith, hvoid, ok_bind]
  cases lower sc id <;> rfl

end Coercions

/-! ## Lets -/

/-- Every `let` of a body has been declared. -/
theorem declareLocals_let {info : ModuleInfo} {arena : Arena} {body : StmtId} {f f' : Frame}
    (h : declareLocals info arena body f = .ok () f') {decl : LetDecl}
    (hdecl : decl ∈ Source.lets arena body) :
    ∃ g g', declareLet info arena decl g = .ok () g' := by
  have hlets := declareLocals_declaresLets body f f' h
  obtain ⟨before, after, hsplit⟩ := List.append_of_mem hdecl
  rw [hsplit, FrameM.forM_append_ok] at hlets
  obtain ⟨g, -, hrest⟩ := hlets
  obtain ⟨⟨⟩, g', hg', -⟩ := EStateM.bind_ok.mp hrest
  exact ⟨g, g', hg'⟩

/-- A `let` without a type is not given an expression without a value. -/
theorem declareLet_valued {info : ModuleInfo} {arena : Arena} (harena : arena.Descending)
    {decl : LetDecl} {g g' : Frame} (h : declareLet info arena decl g = .ok () g')
    (hty : decl.ty = none)
    (hparams : ∀ callee s, signatureOf ⟨info, arena, some g⟩ callee = .ok s →
      ∀ lane ∈ s.paramLanes, lane ≠ .void) :
    Scope.valueless ⟨info, arena, some g⟩ decl.init = false := by
  simp only [declareLet, hty, EStateM.bind_ok, EStateM.get_ok, FrameM.ofCompiled_ok] at h
  obtain ⟨_, _, ⟨rfl, rfl⟩, e, _, ⟨he, rfl⟩, h⟩ := h
  have hinit := Scope.expr_eq_ok.mp he
  -- An initialiser of a kind that is looked at has the lane that the type was read off.
  have hlane (ty : Ty) (hread : (Scope.laneOf ⟨info, arena, some g⟩ decl.init >>=
      typeOfLane decl.name) = .ok ty) :
      Scope.valueless ⟨info, arena, some g⟩ decl.init = false := by
    obtain ⟨lane, hlane, hread⟩ := bind_ok.mp hread
    refine Bool.eq_false_iff.mpr fun hvalueless => ?_
    cases Scope.laneOf_of_valueless harena hparams hvalueless hlane
    cases hread
  cases e with
  | struct _ _ | str _ | array _ _ => exact Scope.valueless_eq hinit (by simp)
  | _ =>
    simp only [EStateM.bind_ok, FrameM.ofCompiled_ok, impliedType, he, ok_bind] at h
    obtain ⟨ty, _, ⟨hread, -⟩, -⟩ := h
    exact hlane ty hread

/-! ## Leaves -/

/-- What code with this purpose has to leave on an empty stack. -/
def Purpose.wanted (result : List ValType) : Purpose → List ValType
  | .effect => []
  | .condition => [.i32]
  | .result => result

/-- Is a call without a result used as a value in the leaf? For its effect it may stand there. -/
def Leaf.starved (sc : Scope) (result : Ty) : Leaf → Bool
  | .effect e => sc.starved e
  | .condition e => sc.lacks e
  | .result e => if result.lane = .void then sc.starved e else sc.lacks e
  | .binding decl => sc.lacks decl.init

section Leaves

variable {sc : Scope} {id : ExprId} {code : Code}

theorem lacks_of_missing (h : sc.missing [id] = 0) : sc.lacks id = false := by
  rw [Scope.missing_one] at h
  cases hlacks : sc.lacks id with
  | false => rfl
  | true => simp [hlacks] at h

/-- A value that is there is not missing. -/
theorem lacks_of_height (h : sc.declared.height code ≤ 1 - sc.missing [id]) {t : ValType}
    (hcheck : sc.declared.check code [] = some [t]) : sc.lacks id = false := by
  have hlength := length_check hcheck
  rw [List.length_singleton, List.length_nil] at hlength
  exact lacks_of_missing (by omega)

variable (harena : sc.arena.Descending) (hnv : sc.NonVoid)
include harena hnv

theorem discard_valued (hdecl : sc.WellDeclared) (h : discard sc id = .ok code)
    (hcheck : sc.declared.check code [] = some []) : sc.starved id = false := by
  obtain ⟨e, he, hle⟩ := discard_height harena hnv hdecl h
  have hlength := length_check hcheck
  rw [Scope.starved_eq he, Bool.eq_false_iff]
  intro hany
  have hpos := Scope.missing_pos_iff.mpr hany
  rw [List.length_nil] at hlength
  omega

theorem letCode_valued {locals : Table String Variable} {decl : LetDecl} {names : List String}
    (h : letCode sc locals decl = .ok (code, names))
    (hcheck : sc.declared.check code [] = some []) : sc.lacks decl.init = false := by
  unfold letCode at h
  obtain ⟨e, he, h⟩ := bind_ok.mp h
  have he := Scope.expr_eq_ok.mp he
  cases e with
  | struct name fields => exact lacks_of_missing (Scope.missing_literal harena he rfl)
  | _ =>
    simp only at h
    split at h
    · cases h
    · simp only [bind_ok, pure_ok] at h
      obtain ⟨value, hvalue, hpair⟩ := h
      cases hpair
      have hpushed := Want.height harena (.inLane _) (lower_weighed harena hnv decl.init) hvalue
      have hlength := length_check hcheck
      rw [List.length_nil, height_append, height_one, rise] at hlength
      exact lacks_of_missing (by omega)

end Leaves

/-- The code of a leaf that is starved does not leave what is wanted. -/
theorem leafCode_valued {info : ModuleInfo} {arena : Arena} (harena : arena.Descending) {f : Frame}
    (hf : f.WellFormed) (hnv : Scope.NonVoid ⟨info, arena, some f⟩) {leaf : Leaf} {code : Code}
    (h : leafCode info arena f leaf = .ok code)
    (hcheck : (Scope.declared ⟨info, arena, some f⟩).check code [] =
      some (leaf.purpose.wanted f.result.lane.valType?.toList)) :
    leaf.starved ⟨info, arena, some f⟩ f.result = false := by
  cases leaf with
  | effect e => exact discard_valued harena hnv hf.wellDeclared h hcheck
  | condition e =>
    exact lacks_of_height (Want.height harena .condition (lower_weighed harena hnv e) h) hcheck
  | result e =>
    simp only [leafCode, Leaf.starved, Leaf.purpose, Purpose.wanted] at h hcheck ⊢
    -- In a function without a result a returned value is discarded.
    split at h
    · next hvoid =>
      rw [hvoid] at hcheck
      rw [if_pos hvoid]
      exact discard_valued harena hnv hf.wellDeclared h hcheck
    · next hvoid =>
      rw [Lane.valType?_of_ne_void hvoid] at hcheck
      rw [if_neg hvoid]
      exact lacks_of_height (Want.height harena (.inLane _) (lower_weighed harena hnv e) h) hcheck
  | binding decl =>
    obtain ⟨⟨own, names⟩, hown, rfl⟩ := map_ok.mp h
    exact letCode_valued harena hnv hown hcheck

/-! ## Functions -/

namespace Body

/-- Every piece of code leaves what is taken from it: a statement nothing, a condition an integer, a
`return` the result. -/
def Checked (Γ : StackContext) (result : List ValType) : Body → Prop
  | done => True
  | run code rest => Γ.check code [] = some [] ∧ rest.Checked Γ result
  | block _ inner rest => inner.Checked Γ result ∧ rest.Checked Γ result
  | loop _ inner rest => inner.Checked Γ result ∧ rest.Checked Γ result
  | branch _ rest => rest.Checked Γ result
  | branchUnless condition _ rest => Γ.check condition [] = some [.i32] ∧ rest.Checked Γ result
  | cond condition _ thenArm rest =>
    Γ.check condition [] = some [.i32] ∧ thenArm.Checked Γ result ∧ rest.Checked Γ result
  | condElse condition _ thenArm elseArm rest =>
    Γ.check condition [] = some [.i32] ∧ thenArm.Checked Γ result ∧ elseArm.Checked Γ result ∧
      rest.Checked Γ result
  | ret value rest => Γ.check value [] = some result ∧ rest.Checked Γ result
  | unreachable rest => rest.Checked Γ result

variable {Γ : StackContext} {result : List ValType}

/-- In checked code every piece leaves what its purpose wants. -/
theorem Checked.piece {body : Body} (h : body.Checked Γ result) {piece : Purpose × Code}
    (hpiece : piece ∈ body.pieces) : Γ.check piece.2 [] = some (piece.1.wanted result) := by
  induction body with
  | done => cases hpiece
  | ret value rest ih =>
    simp only [pieces] at hpiece
    split at hpiece
    · exact ih h.2 hpiece
    · rcases List.mem_cons.mp hpiece with rfl | hpiece
      · exact h.1
      · exact ih h.2 hpiece
  | _ =>
    simp only [pieces, List.mem_cons, List.mem_append] at hpiece
    simp only [Checked] at h
    grind [Purpose.wanted]

theorem Checked.body {body : Body} (h : (body ++ .unreachable .done).Checked Γ result) :
    body.Checked Γ result := by
  have happ : ∀ c d : Body, c ++ d = c.append d := fun _ _ => rfl
  induction body <;> simp_all [append, Checked]

end Body

namespace Lower.FunctionLowering

variable {info : ModuleInfo} {arena : Arena} {name : String} {entry : FunctionEntry}
variable {func : Wat.Func} (l : FunctionLowering info arena name entry func)

theorem body_checked {Γ : StackContext} {result : List ValType} (h : func.body.Checked Γ result) :
    l.body.Checked Γ result := by
  rcases l.body_cases with heq | heq
  · rwa [heq] at h
  · rw [heq] at h
    exact h.body

variable (harena : arena.Descending) (hnv : ∀ pending, (l.scope pending).NonVoid)
include harena hnv

theorem lets_valued {decl : LetDecl} (hdecl : decl ∈ Source.lets arena l.decl.body)
    (hty : decl.ty = none) : (l.scope []).valueless decl.init = false := by
  obtain ⟨g, g', hg⟩ := declareLocals_let l.declared_eq hdecl
  -- What functions there are does not depend on the locals.
  have hvalued := declareLet_valued harena hg hty fun _ _ => (hnv []).paramLanes_ne_void
  exact hvalued

theorem leaves_valued {leaf : Leaf} (hleaf : leaf ∈ Source.leaves arena l.decl.body)
    (h : func.body.Checked (l.scope []).declared l.declared.result.lane.valType?.toList) :
    leaf.starved (l.scope []) l.declared.result = false := by
  rw [← List.flatMap_singleton (Source.leaves arena)] at hleaf
  obtain ⟨pending, code, hpiece, hcode⟩ := l.lowers.emits.piece_of_mem hleaf
  have hcheck := (l.body_checked h).piece hpiece
  have hf : { l.declared with pending }.WellFormed :=
    bodyFrame_wellFormed l.params_eq l.declared_eq pending l.declared.loops
  exact leafCode_valued harena hf (hnv pending) hcode hcheck

end Lower.FunctionLowering

/-- **Calls without a result are found out late.** Whatever is in the void lane is lowered as it is,
both in another lane and as a condition. These are the calls without a result and the assignments of
one. A function that was lowered initialises no `let` with them that has no type of its own. If all
of its code is checked, it does not use a call without a result as a value at all. -/
theorem checked_functions_use_no_void_call (info : ModuleInfo) {arena : Arena}
    (harena : arena.Descending) :
    (∀ frame id lane, lane ≠ .void → Scope.laneOf ⟨info, arena, frame⟩ id = .ok .void →
      asLane ⟨info, arena, frame⟩ id lane = ((lower ⟨info, arena, frame⟩ id).map fun code =>
        if lane.isFloat then code ++ .one .floatOfInt else code) ∧
      condition ⟨info, arena, frame⟩ id = lower ⟨info, arena, frame⟩ id) ∧
    (∀ (f : Frame) id lane, f.WellFormed → Scope.NonVoid ⟨info, arena, some f⟩ →
      Scope.laneOf ⟨info, arena, some f⟩ id = .ok lane →
      (lane = .void ↔ Scope.valueless ⟨info, arena, some f⟩ id = true)) ∧
    ∀ name entry func (l : FunctionLowering info arena name entry func),
      (∀ pending, (l.scope pending).NonVoid) →
      (∀ decl ∈ Source.lets arena l.decl.body, decl.ty = none →
        (l.scope []).valueless decl.init = false) ∧
      (func.body.Checked (l.scope []).declared l.declared.result.lane.valType?.toList →
        ∀ leaf ∈ Source.leaves arena l.decl.body,
          leaf.starved (l.scope []) l.declared.result = false) := by
  refine ⟨fun frame id lane hlane hvoid => ?_, fun f id lane hf hnv hlane => ?_,
    fun name entry func l hnv => ⟨fun decl hdecl hty => ?_, fun hchecked leaf hleaf => ?_⟩⟩
  · exact ⟨asLane_of_void hvoid harena hlane, condition_of_void hvoid⟩
  · exact Scope.laneOf_eq_void_iff harena hf.wellDeclared hnv hlane
  · exact l.lets_valued harena hnv hdecl hty
  · exact l.leaves_valued harena hnv hleaf hchecked

/-- `fun ping() {}` and `fun main() { ping() + 1; }` -/
def chime : Module where
  name := "chime"
  items := [1, 4]
  arena := {
    exprs := #[.call "ping" [], .int 1, .binary .add 0 1]
    stmts := #[
      .block [],
      .function ⟨"ping", [], .void, 0, false⟩,
      .expr 2,
      .block [2],
      .function ⟨"main", [], .void, 3, false⟩] }

namespace chime

def entry : FunctionEntry := ⟨⟨[], .void⟩, false, 4⟩

def info : ModuleInfo where
  name := "chime"
  functions := ⟨[("ping", ⟨⟨[], .void⟩, false, 1⟩), ("main", entry)]⟩
  data := { base := 16, cursor := 16 }

theorem extract_eq : chime.extract 16 = .ok info := by decide +kernel

theorem descending : chime.arena.Descending := Module.descending_of_validate (m := chime) rfl

def sumCode : Code := .ofList [.call "ping", .intConst 1, .intBinary .add, .drop]

def frame : Frame where
  name := "main"
  result := .void

def main : Wat.Func where
  name := "main"
  exported := false
  encoded := "_v"
  params := []
  result := none
  locals := []
  body := .run sumCode .done

def lowering : FunctionLowering info chime.arena "main" entry main where
  decl := ⟨"main", [], .void, 3, false⟩
  params := frame
  declared := frame
  labels := {}
  body := .run sumCode .done
  after := ⟨frame, {}⟩
  decl_eq := rfl
  params_eq := rfl
  declared_eq := FrameM.result?_eq_some.mp (by decide +kernel)
  lowers := .block rfl (by decide) (.expr rfl (by decide +kernel))
  func_eq := rfl

theorem nonVoid (pending : List String) : (lowering.scope pending).NonVoid := by
  have hlookup (name : String) (v : Variable) : (lowering.scope pending).lookup name ≠ .ok v := by
    have hvisible : { frame with pending }.visibleLocal? name = none := by
      unfold Frame.visibleLocal?
      split <;> rfl
    simp only [Scope.lookup, Scope.lookupLocal?, FunctionLowering.scope]
    rw [show lowering.declared = frame from rfl, hvisible]
    simp [frame, Scope.lookupGlobal, info, Table.get?, Table.find]
  refine ⟨fun name v h => absurd h (hlookup name v), fun name v t h => absurd h (hlookup name v),
    fun name layout member m h => ?_, fun callee s h => ?_⟩
  · cases h
  · simp only [signatureOf, FunctionLowering.scope] at h
    cases hf : info.functions.get? callee with
    | some f =>
      rw [hf] at h
      cases h
      have hmem := Table.mem_of_get? hf
      simp only [info, List.mem_cons, List.not_mem_nil, or_false] at hmem
      rcases hmem with hmem | hmem <;> cases hmem <;> simp [entry]
    | none =>
      rw [hf] at h
      cases h

end chime

/-- The sum is accepted as it stands, but the code of `main` is not checked: it has one value where
two are wanted. -/
theorem chime_not_checked : chime.extract 16 = .ok chime.info ∧
    (chime.lowering.scope []).laneOf 0 = .ok .void ∧
    asLane (chime.lowering.scope []) 0 .int = .ok (.one (.call "ping")) ∧
    condition (chime.lowering.scope []) 0 = .ok (.one (.call "ping")) ∧
    ¬ chime.main.body.Checked (chime.lowering.scope []).declared [] := by
  have hlane : (chime.lowering.scope []).laneOf 0 = .ok .void :=
    eq_ok_iff.mpr (by decide +kernel)
  have hcode : lower (chime.lowering.scope []) 0 = .ok (.one (.call "ping")) :=
    eq_ok_iff.mpr (by decide +kernel)
  obtain ⟨hcoerced, -, hfunctions⟩ :=
    checked_functions_use_no_void_call chime.info chime.descending
  obtain ⟨hint, hcondition⟩ := hcoerced _ 0 .int (by simp) hlane
  refine ⟨chime.extract_eq, hlane, ?_, hcondition.trans hcode, fun hchecked => ?_⟩
  · exact hint.trans (congrArg (Except.map _) hcode)
  · have hleaf : .effect 2 ∈ Source.leaves chime.arena 3 := by decide +kernel
    have hstarved := (hfunctions _ _ _ chime.lowering chime.nonVoid).2 hchecked _ hleaf
    revert hstarved
    decide +kernel

end WasmBackend
