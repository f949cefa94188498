import WasmBackend.Proofs.Stack.Rules

/-!
# Lanes and operand stacks

The rules put together: whatever can be lowered is *understood*, by induction on the numbers of
expressions, which in a validated module go down from a node to its operands. An expression's code
then leaves a value of the expression's lane exactly if that lane can be relied on, and an
expression for its effect leaves nothing exactly if it is coherent.

The lane is wrong for an assignment to a variable of another lane: `x = 1.5` has the lane of `1.5`,
while its code leaves what `x` holds. Void is left out, as in the rules.
-/

namespace WasmBackend

open Compiled Lower StackContext

section Induction

variable {sc : Scope} (harena : sc.arena.Descending) (hdecl : sc.WellDeclared) (hnv : sc.NonVoid)
variable {sub : ExprId → Compiled Code} {id : ExprId} {e : Expr} {code : Code}

theorem Lane.plain_eq_void {lane : Lane} : lane.plain = .void ↔ lane = .void := by
  cases lane <;> simp [plain]

theorem elementType_ne_void (hnv : sc.NonVoid) {t : Ty} (h : sc.elementType e = .ok (some t)) :
    t ≠ .void := by
  cases e with
  | ident name =>
    simp only [Scope.elementType, bind_ok, pure_ok] at h
    obtain ⟨v, hv, ht⟩ := h
    exact hnv.elements name v t hv ht
  | _ => cases h

include harena hdecl hnv

/-- One step of lowering. -/
theorem lowerStep_leaves (he : sc.arena.expr? id = some e) (hcalls : sc.NoVoidCall id)
    (hoperands : ∀ c, sc.NoVoidCall c → Understood sc sub c) (h : lowerStep sc id sub = .ok code) :
    ∃ pushed, sc.pushedLane id = .ok pushed ∧ sc.declared.Leaves code
      (if sc.coherentWith sc.coherent e then some pushed.carried else none) := by
  have hexpr := Scope.expr_eq_ok.mpr he
  obtain ⟨e', he', ⟨p, hrule, hp⟩ | ⟨values, after, hrule, hvalues⟩⟩ := lowerStep_ok h <;>
    cases he.symm.trans he'
  · by_cases hident : ∃ name, e = .ident name
    · obtain ⟨name, rfl⟩ := hident
      cases hrule with
      | literal hi => cases hi
      | @named _ v hv =>
        obtain ⟨-, rfl⟩ := hp
        refine ⟨v.heldLane, ?_, (hdecl.lookup name v hv).leaves⟩
        simp only [Scope.pushedLane, hexpr, ok_bind, hv]
        rfl
      | load hplace => cases hplace with
        | member he => rcases he with he | he <;> cases he
    · have heffect := hrule.hasEffect
      rw [Scope.pushedLane_eq_laneOf he (by rintro _ _ rfl; cases heffect) (not_exists.mp hident)]
      exact hrule.leaves harena hdecl (fun c hc => hoperands c (hcalls.within
        (.operand he (hrule.operands_mem hc) .refl))) he (not_exists.mp hident) hp
  · obtain ⟨pushed, hpushed, hcheck⟩ := hrule.check harena hdecl hnv he hcalls
      (fun p hp c hc => hoperands c (hcalls.operand he (hrule.operands_within hp hc))) hvalues
    refine ⟨pushed, hpushed rfl, fun stack => ?_⟩
    rw [hcheck stack]
    split <;> rfl

/-- Whatever can be lowered is understood. -/
theorem lower_understood (id : ExprId) (hcalls : sc.NoVoidCall id) :
    Understood sc (lower sc) id := by
  intro code h
  refine lower_induction (P := fun id code => sc.NoVoidCall id → ∃ pushed,
    sc.pushedLane id = .ok pushed ∧ sc.declared.Leaves code
      (if sc.coherent id then some pushed.carried else none)) ?_ h hcalls
  intro id sub code hsub h hcalls
  obtain ⟨e, he, -⟩ := lowerStep_ok h
  rw [Scope.coherent_eq harena he]
  exact lowerStep_leaves harena hdecl hnv he hcalls (fun c hc code hcode => hsub c code hcode hc) h

/-- Only a call or an assignment can be in the void lane. -/
theorem laneOf_plain_ne_void (he : sc.arena.expr? id = some e)
    (hcall : ∀ callee args, e ≠ .call callee args)
    (hassign : ∀ target value, e ≠ .assign target value) {lane : Lane}
    (h : sc.laneOf id = .ok lane) : lane ≠ .void := by
  have hmember : ∀ base name, (do return (← sc.memberOf base name).2.ty.lane) =
      (.ok lane : Compiled Lane) → lane ≠ .void := by
    intro base name hmember
    simp only [bind_ok, pure_ok] at hmember
    obtain ⟨⟨v, layout⟩, hmember, rfl⟩ := hmember
    obtain ⟨x, structName, struct, -, -, -, hstruct, hlayout⟩ := Scope.memberOf_ok hmember
    exact Ty.lane_ne_void (hnv.members structName struct name layout hstruct hlayout)
  have hstep := Scope.laneOf_eq harena he
  simp only [Scope.laneOfStep, Scope.expr_eq_ok.mpr he, ok_bind] at hstep
  cases e with
  | int _ | float _ | bool _ | char _ | str _ | array _ _ | struct _ _ =>
    rw [Scope.laneOf_literal he rfl] at h
    cases h
    simp
  | ident name =>
    rw [Scope.laneOf_ident he] at h
    simp only [bind_ok, pure_ok] at h
    obtain ⟨v, hv, rfl⟩ := h
    exact Ty.lane_ne_void (hnv.vars name v hv)
  | binary op left right =>
    rw [hstep] at h
    dsimp only at h
    split at h
    · cases h
      simp
    · simp only [bind_ok, pure_ok] at h
      obtain ⟨leftLane, -, rightLane, -, rfl⟩ := h
      unfold Scope.promote
      split <;> simp
  | unary op operand =>
    rw [hstep] at h
    cases op with
    | neg =>
      simp only [bind_ok, pure_ok] at h
      obtain ⟨operandLane, -, rfl⟩ := h
      split <;> simp
    | not | bitNot => cases h; simp
    | deref =>
      simp only [bind_ok, pure_ok] at h
      obtain ⟨s, -, rfl⟩ := h
      exact Scalar.lane_ne_void s
  | update op operand =>
    rw [hstep] at h
    simp only [bind_ok] at h
    obtain ⟨e, -, h⟩ := h
    split at h
    · simp only [bind_ok, pure_ok] at h
      obtain ⟨v, hv, rfl⟩ := h
      exact Ty.lane_ne_void (hnv.vars _ v hv)
    · cases h
  | index base position =>
    rw [Scope.laneOf_index he] at h
    simp only [bind_ok, pure_ok] at h
    obtain ⟨e, -, element, helement, rfl⟩ := h
    cases element with
    | none => simp
    | some t => exact Ty.lane_ne_void (elementType_ne_void hnv helement)
  | member base name =>
    rw [hstep] at h
    cases hv : sc.flattenedMember? base name with
    | none =>
      simp only [hv] at h
      exact hmember base name h
    | some v =>
      simp only [hv] at h
      cases h
      obtain ⟨-, flattened, hlookup⟩ := flattenedMember?_declares hdecl hv
      exact Ty.lane_ne_void (hnv.vars flattened v hlookup)
  | pointerMember base name => exact hmember base name (hstep.symm.trans h)
  | call callee args => exact absurd rfl (hcall callee args)
  | assign target value => exact absurd rfl (hassign target value)

omit harena hdecl hnv in
/-- A call is in the void lane exactly if the callee has no result. -/
theorem callLane_eq_void_iff {callee : String} {lane : Lane} (h : sc.callLane callee = .ok lane)
    {s : Signature} (hs : signatureOf sc callee = .ok s)
    (hparams : ∀ lane ∈ s.paramLanes, lane ≠ .void) : lane = .void ↔ s.result = .void := by
  obtain ⟨result, hresult, hplain⟩ := Scope.callLane_plain hs hparams
  obtain rfl : result = lane := Except.ok.inj (hresult.symm.trans h)
  rw [← Lane.plain_eq_void, hplain, Lane.plain_eq_void]
  exact Ty.lane_eq_void_iff

/-- No expression is in the void lane. -/
theorem laneOf_ne_void (id : ExprId) (hcalls : sc.NoVoidCall id) {lane : Lane}
    (h : sc.laneOf id = .ok lane) : lane ≠ .void := by
  refine Scope.laneOf_induction harena
    (P := fun id => sc.NoVoidCall id → lane ≠ .void) ?_ ?_ h hcalls
  · intro id target value he hvalue hcalls
    exact hvalue (hcalls.within (.operand he (by simp) .refl))
  · intro id e he hassign h hcalls
    cases e with
    | call callee args =>
      rw [Scope.laneOf_call he] at h
      obtain ⟨s, hs⟩ := Scope.signatureOf_of_callLane h
      rw [Ne, callLane_eq_void_iff h hs (hnv.paramLanes_ne_void hs)]
      exact hcalls id callee args s .refl he hs
    | _ => exact laneOf_plain_ne_void harena hdecl hnv he (by simp) hassign h

/-- An expression for its effect leaves nothing, or is refused. -/
theorem discard_check (hcalls : sc.NoVoidCall id) (h : discard sc id = .ok code)
    (stack : List ValType) :
    sc.declared.check code stack = if sc.coherent id then some stack else none := by
  obtain ⟨e, he, ⟨values, after, hrule, hvalues⟩ | ⟨-, lane, own, hlane, hown, rfl⟩⟩ := discard_ok h
  · obtain ⟨_, -, hcheck⟩ := hrule.check harena hdecl hnv he hcalls
      (fun p hp c hc => lower_understood harena hdecl hnv c
        (hcalls.operand he (hrule.operands_within hp hc))) hvalues
    rw [hcheck stack, Scope.coherent_eq harena he]
    rfl
  · obtain ⟨pushed, -, hleaves⟩ := lower_understood harena hdecl hnv id hcalls own hown
    rw [dropValue, if_neg (laneOf_ne_void harena hdecl hnv id hcalls hlane), check_append,
      hleaves stack]
    cases sc.coherent id <;> simp

end Induction

/-! ## Soundness -/

/-- **What lanes are worth.** The code of an expression leaves one value of the expression's lane
exactly if that lane can be relied on, and the code of an expression for its effect leaves nothing
exactly if it is coherent; otherwise validation refuses the code. -/
theorem validates_iff_coherent {sc : Scope} {f : Frame} (hframe : sc.frame = some f)
    (hf : f.WellFormed) (harena : sc.arena.Descending) (hnv : sc.NonVoid) {id : ExprId}
    (hcalls : sc.NoVoidCall id) :
    (∀ lane code, sc.laneOf id = .ok lane → lower sc id = .ok code →
      (sc.declared.check code [] = some lane.valType?.toList ↔
        sc.relied sc.coherent id = true)) ∧
    (∀ code, discard sc id = .ok code →
      (sc.declared.check code [] = some [] ↔ sc.coherent id = true)) := by
  obtain ⟨info, arena, frame⟩ := sc
  obtain rfl : frame = some f := hframe
  have hdecl : Scope.WellDeclared ⟨info, arena, some f⟩ := hf.wellDeclared
  refine ⟨fun lane code hlane hcode => ?_, fun code hcode => ?_⟩
  · have hvoid := laneOf_ne_void harena hdecl hnv id hcalls hlane
    obtain ⟨t, ht, hiff⟩ :=
      (lower_understood harena hdecl hnv id hcalls).own hcode hlane
    rw [Lane.valType?_of_ne_void hvoid, ← hiff]
    exact ht.check_empty_iff lane.carried
  · rw [discard_check harena hdecl hnv hcalls hcode []]
    cases Scope.coherent ⟨info, arena, some f⟩ id <;> simp

/-- An integer `x` and a float `y`. -/
def intAndFloat : Frame where
  name := "f"
  result := .void
  locals := ⟨[("x", ⟨"x", .localVar, .i32⟩), ("y", ⟨"y", .localVar, .f32⟩)]⟩

theorem intAndFloat_wellFormed : intAndFloat.WellFormed := by
  have hempty : ({ name := "f", result := .void } : Frame).WellFormed :=
    ⟨fun _ _ h => (nomatch h), fun _ _ h => (nomatch h), fun _ h => (nomatch h)⟩
  exact (hempty.addLocal "x" .i32 rfl).addLocal "y" .f32 rfl

/-- `y = (x = 1.5)` -/
def floatThroughInt : Scope where
  info := .empty "m" 16
  arena := { exprs := #[.ident "x", .float ⟨0x3ff8000000000000⟩, .assign 0 1, .ident "y",
    .assign 3 2] }
  frame := some intAndFloat

theorem floatThroughInt_descending : floatThroughInt.arena.Descending :=
  Module.descending_of_validate (m := ⟨"m", [], floatThroughInt.arena⟩) rfl

theorem floatThroughInt_nonVoid : floatThroughInt.NonVoid := by
  have hlookup : ∀ name v, floatThroughInt.lookup name = .ok v → v.ty = .i32 ∨ v.ty = .f32 := by
    intro name v h
    simp only [Scope.lookup, Scope.lookupLocal?, floatThroughInt, intAndFloat,
      Frame.visibleLocal?, Table.get?, Table.find, List.contains_nil, Bool.false_eq_true,
      if_false] at h
    by_cases hx : "x" = name
    · simp only [hx, if_true] at h
      cases h
      exact .inl rfl
    · by_cases hy : "y" = name
      · simp only [hx, hy, if_false, if_true] at h
        cases h
        exact .inr rfl
      · simp only [hx, hy, if_false] at h
        cases h
  refine ⟨fun name v hv => ?_, fun name v t hv ht => ?_, fun name layout member m h => ?_,
    fun callee s h => ?_⟩
  · rcases hlookup name v hv with h | h <;> rw [h] <;> decide
  · rcases hlookup name v hv with h | h <;> rw [h] at ht <;> cases ht
  · cases h
  · cases h

theorem floatThroughInt_noVoidCall (id : ExprId) : floatThroughInt.NoVoidCall id := by
  intro inner callee args s _ hinner _
  match inner with
  | 0 | 1 | 2 | 3 | 4 => cases hinner
  | _ + 5 => cases hinner

/-- `x = 1.5` is said to be a float and leaves an integer; taken for its effect it validates, but
not inside `y = (x = 1.5)`. -/
theorem floatThroughInt_not_sound :
    let sc := floatThroughInt
    sc.laneOf 2 = .ok .float ∧
      lower sc 2 = .ok (.ofList [.intConst 1, .localTee "x"]) ∧
      sc.declared.check (.ofList [.intConst 1, .localTee "x"]) [] ≠
        some Lane.float.valType?.toList ∧
      discard sc 4 = .ok (.ofList [.intConst 1, .localTee "x", .localSet "y"]) ∧
      sc.declared.check (.ofList [.intConst 1, .localTee "x", .localSet "y"]) [] ≠ some [] := by
  intro sc
  have hframe : sc.frame = some intAndFloat := rfl
  have hlane : sc.laneOf 2 = .ok .float := eq_ok_iff.mpr (by decide +kernel)
  have hcode : lower sc 2 = .ok (.ofList [.intConst 1, .localTee "x"]) :=
    eq_ok_iff.mpr (by decide +kernel)
  have heffect : discard sc 4 = .ok (.ofList [.intConst 1, .localTee "x", .localSet "y"]) :=
    eq_ok_iff.mpr (by decide +kernel)
  obtain ⟨hvalue, -⟩ := validates_iff_coherent hframe intAndFloat_wellFormed
    floatThroughInt_descending floatThroughInt_nonVoid (floatThroughInt_noVoidCall 2)
  obtain ⟨-, hdiscard⟩ := validates_iff_coherent hframe intAndFloat_wellFormed
    floatThroughInt_descending floatThroughInt_nonVoid (floatThroughInt_noVoidCall 4)
  refine ⟨hlane, hcode, ?_, heffect, ?_⟩
  · rw [Ne, hvalue _ _ hlane hcode]
    decide +kernel
  · rw [Ne, hdiscard _ heffect]
    decide +kernel

end WasmBackend
