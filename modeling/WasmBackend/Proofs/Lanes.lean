import Mathlib.Algebra.Group.Nat.Defs
import WasmBackend.Proofs.Arena
import WasmBackend.Proofs.Success

/-!
# Lanes, node by node

`laneOf` at a node of a validated module, without the guard of its recursion; and the lane of a
call, which is that of the callee's result although an imported callee is known by its encoded
signature only. What the code leaves is not looked at: see `Stack.Coherence`.
-/

namespace WasmBackend

open Compiled

/-! ## Encoded signatures -/

/-- The lane that a letter stands for: that of a boolean is the integers'. -/
def Lane.plain : Lane → Lane
  | .bool => .int
  | lane => lane

theorem Ty.lane_eq_void_iff {t : Ty} : t.lane = .void ↔ t = .void := by
  cases t with
  | scalar s => cases s <;> simp [lane, Scalar.lane]
  | _ => simp [lane]

theorem Signature.paramLanes_ne_void {s : Signature} :
    (∀ l ∈ s.paramLanes, l ≠ .void) ↔ ∀ t ∈ s.params, t ≠ .void := by
  rw [Signature.paramLanes, List.forall_mem_map]
  exact forall₂_congr fun _ _ => not_congr Ty.lane_eq_void_iff

namespace Signature

theorem letter_ne_underscore (lane : Lane) : (lane.letter != '_') = true := by cases lane <;> rfl

theorem takeWhile_letters (params : List Lane) (rest : List Char) :
    (params.map Lane.letter ++ '_' :: rest).takeWhile (· != '_') = params.map Lane.letter := by
  induction params with
  | nil => rfl
  | cons lane params ih => simp [letter_ne_underscore, ih]

theorem dropWhile_letters (params : List Lane) (rest : List Char) :
    (params.map Lane.letter ++ '_' :: rest).dropWhile (· != '_') = '_' :: rest := by
  induction params with
  | nil => rfl
  | cons lane params ih => simp [letter_ne_underscore, ih]

/-- Equal encodings have equal letters, parameters and result. -/
theorem letters_of_encodeLanes {ps qs : List Lane} {r s : Lane}
    (h : encodeLanes ps r = encodeLanes qs s) :
    ps.map Lane.letter = qs.map Lane.letter ∧ r.letter = s.letter := by
  have hletters : ps.map Lane.letter ++ '_' :: [r.letter] =
      qs.map Lane.letter ++ '_' :: [s.letter] := String.ofList_injective h
  constructor
  · simpa only [takeWhile_letters] using congrArg (List.takeWhile (· != '_')) hletters
  · simpa [dropWhile_letters] using congrArg (List.dropWhile (· != '_')) hletters

theorem mapM_paramLane? {params : List Lane} (h : ∀ lane ∈ params, lane ≠ .void) :
    (params.map Lane.letter).mapM paramLane? = some (params.map Lane.plain) := by
  induction params with
  | nil => rfl
  | cons lane params ih =>
    obtain ⟨hlane, hparams⟩ := List.forall_mem_cons.mp h
    rw [List.map_cons, List.mapM_cons, ih hparams]
    cases lane <;> first | rfl | exact absurd rfl hlane

theorem resultLane?_letter (lane : Lane) : resultLane? [lane.letter] = some lane.plain := by
  cases lane <;> rfl

/-- Decoding gives back the lanes that were encoded, if a value can be passed in each. -/
theorem decode_encodeLanes {params : List Lane} (result : Lane)
    (h : ∀ lane ∈ params, lane ≠ .void) :
    decode (encodeLanes params result) = .ok (params.map Lane.plain, result.plain) := by
  simp only [decode, encodeLanes, String.toList_ofList, dropWhile_letters, takeWhile_letters]
  rw [mapM_paramLane? h, resultLane?_letter]
  rfl

theorem decodeResult_encoded {s : Signature} (h : ∀ lane ∈ s.paramLanes, lane ≠ .void) :
    decodeResult s.encoded = .ok s.resultLane.plain := by
  rw [decodeResult, encoded, decode_encodeLanes _ h]
  rfl

end Signature

/-! ## Lanes of expressions -/

/-- The lane of a literal. One in constant data evaluates to its address. -/
def Expr.literalLane? : Expr → Option Lane
  | .int _ => some .int
  | .char _ => some .int
  | .float _ => some .float
  | .bool _ => some .bool
  | .str _ => some .int
  | .array _ _ => some .int
  | .struct _ _ => some .int
  | _ => none

namespace Scope

variable {sc : Scope}

theorem expr_eq_ok {id : ExprId} {e : Expr} : sc.expr id = .ok e ↔ sc.arena.expr? id = some e := by
  unfold expr
  cases sc.arena.expr? id with
  | none => simp
  | some e' => simp

/-- The lane of an expression is its step on the lanes of its operands. -/
theorem laneOf_eq (harena : sc.arena.Descending) {id : ExprId} {e : Expr}
    (he : sc.arena.expr? id = some e) : sc.laneOf id = laneOfStep sc id sc.laneOf := by
  have hlt := harena id e he
  rw [laneOf, descend_eq, ← laneOf]
  simp only [laneOfStep, expr_eq_ok.mpr he, ok_bind]
  cases e with
  | binary op left right =>
    simp only [if_pos (hlt left (by simp)),
      if_pos (hlt right (by simp))]
  | unary op operand =>
    cases op with
    | neg => simp only [if_pos (hlt operand (by simp))]
    | _ => rfl
  | assign target value => simp only [if_pos (hlt value (by simp))]
  | _ => rfl

section Nodes

variable {id : ExprId}

/-- An assignment has the lane of its value, so what has a lane is looked at where it is no
assignment. -/
theorem laneOf_induction (harena : sc.arena.Descending) {P : ExprId → Prop} {lane : Lane}
    (hassign : ∀ id target value, sc.arena.expr? id = some (.assign target value) → P value → P id)
    (hother : ∀ id e, sc.arena.expr? id = some e → (∀ target value, e ≠ .assign target value) →
      sc.laneOf id = .ok lane → P id) (h : sc.laneOf id = .ok lane) : P id := by
  induction id using Nat.strongRecOn with
  | ind id ih =>
    cases he : sc.arena.expr? id with
    | none =>
      rw [laneOf, descend_eq] at h
      simp only [laneOfStep, expr, he] at h
      cases h
    | some e =>
      cases e with
      | assign target value =>
        rw [laneOf_eq harena he] at h
        simp only [laneOfStep, expr_eq_ok.mpr he, ok_bind] at h
        exact hassign id target value he (ih value (harena id _ he value (by simp)) h)
      | _ => exact hother id _ he (by simp) h

theorem laneOf_literal {e : Expr} {lane : Lane} (he : sc.arena.expr? id = some e)
    (h : e.literalLane? = some lane) : sc.laneOf id = .ok lane := by
  rw [laneOf, descend_eq]
  simp only [laneOfStep, expr_eq_ok.mpr he, ok_bind]
  cases e <;> cases h <;> rw [infer, descend_eq] <;>
    simp only [inferStep, expr_eq_ok.mpr he, ok_bind]

theorem laneOf_ident {name : String} (he : sc.arena.expr? id = some (.ident name)) :
    sc.laneOf id = do return (← sc.lookup name).ty.lane := by
  rw [laneOf, descend_eq]
  simp only [laneOfStep, expr_eq_ok.mpr he, ok_bind]
  rw [infer, descend_eq]
  simp only [inferStep, expr_eq_ok.mpr he, ok_bind]

theorem laneOf_call {callee : String} {args : List ExprId}
    (he : sc.arena.expr? id = some (.call callee args)) : sc.laneOf id = sc.callLane callee := by
  rw [laneOf, descend_eq]
  simp only [laneOfStep, expr_eq_ok.mpr he, ok_bind]
  rw [infer, descend_eq]
  simp only [inferStep, expr_eq_ok.mpr he, ok_bind]

theorem laneOf_index {base position : ExprId}
    (he : sc.arena.expr? id = some (.index base position)) :
    sc.laneOf id = do return ((← sc.elementType (← sc.expr base)).map Ty.lane).getD .int := by
  rw [laneOf, descend_eq]
  simp only [laneOfStep, expr_eq_ok.mpr he, ok_bind]
  rw [infer, descend_eq]
  simp only [inferStep, expr_eq_ok.mpr he, ok_bind]

end Nodes

/-- The lane of a call is that of the callee's result, up to booleans. -/
theorem callLane_plain {callee : String} {s : Signature}
    (hs : Lower.signatureOf sc callee = .ok s) (hparams : ∀ lane ∈ s.paramLanes, lane ≠ .void) :
    ∃ lane, sc.callLane callee = .ok lane ∧ lane.plain = s.resultLane.plain := by
  unfold Lower.signatureOf at hs
  unfold callLane
  cases hf : sc.info.functions.get? callee with
  | some f =>
    simp only [hf, Except.ok.injEq] at hs
    exact ⟨f.signature.resultLane, rfl, by rw [hs]⟩
  | none =>
    simp only [hf] at hs ⊢
    cases hi : sc.info.imports.get? callee with
    | none => simp only [hi] at hs; cases hs
    | some i =>
      simp only [hi] at hs ⊢
      obtain ⟨d, hd, hs⟩ := bind_ok.mp hs
      cases d with
      | function s' =>
        simp only [pure_ok] at hs
        subst hs
        -- Of an import only the encoded type is looked at, in which booleans are integers.
        refine ⟨s'.resultLane.plain, ?_, by cases s'.resultLane <;> rfl⟩
        rw [hd]
        exact Signature.decodeResult_encoded hparams
      | global ty memoryBacked => cases hs
      | struct layout => cases hs

/-- What has a lane as a call has a signature. -/
theorem signatureOf_of_callLane {callee : String} {lane : Lane}
    (h : sc.callLane callee = .ok lane) : ∃ s, Lower.signatureOf sc callee = .ok s := by
  unfold callLane at h
  unfold Lower.signatureOf
  cases hf : sc.info.functions.get? callee with
  | some f => exact ⟨f.signature, rfl⟩
  | none =>
    simp only [hf] at h ⊢
    cases hi : sc.info.imports.get? callee with
    | none => simp only [hi] at h; cases h
    | some i =>
      simp only [hi] at h ⊢
      obtain ⟨d, hd, h⟩ := bind_ok.mp h
      cases d with
      | function s => exact ⟨s, by rw [hd]; rfl⟩
      | global ty memoryBacked => cases h
      | struct layout => cases h

/-! ## Members -/

/-- A member belongs to the struct that a variable is of, or points to. -/
theorem memberOf_ok {base : ExprId} {name : String} {v : Variable} {layout : MemberLayout}
    (h : sc.memberOf base name = .ok (v, layout)) :
    ∃ x structName struct, sc.arena.expr? base = some (.ident x) ∧ sc.lookup x = .ok v ∧
      v.ty.structName? = some structName ∧ sc.info.structLayout structName = .ok struct ∧
      struct.member name = .ok layout := by
  simp only [memberOf, bind_ok] at h
  obtain ⟨e, he, h⟩ := h
  cases e with
  | ident x =>
    simp only [bind_ok] at h
    obtain ⟨v', hv, h⟩ := h
    cases hs : v'.ty.structName? with
    | none => simp only [hs] at h; cases h
    | some structName =>
      simp only [hs, bind_ok, pure_ok] at h
      obtain ⟨struct, hstruct, member, hmember, hpair⟩ := h
      cases hpair
      exact ⟨x, structName, struct, expr_eq_ok.mp he, hv, hs, hstruct, hmember⟩
  | _ => cases h

end Scope

/-- The place of a member is found through the variable. -/
theorem Lower.memberPlace_ok {sc : Scope} {base : ExprId} {name : String} {p : Place}
    (h : memberPlace sc base name = .ok p) :
    ∃ v layout s, sc.memberOf base name = .ok (v, layout) ∧ layout.ty.storage? = some s ∧
      p = ⟨.one (.get v), s, layout.offset⟩ := by
  simp only [memberPlace, bind_ok] at h
  obtain ⟨⟨v, layout⟩, hmember, h⟩ := h
  cases hs : layout.ty.storage? with
  | none => simp only [hs] at h; cases h
  | some s =>
    simp only [hs, pure_ok] at h
    exact ⟨v, layout, s, hmember, hs, h.symm⟩

/-- A call has as many arguments as the callee has parameters. -/
theorem Lower.callWith_ok {sc : Scope} {sub : ExprId → Compiled Code} {callee : String}
    {args : List ExprId} {r : Code × Lane} (h : callWith sc sub callee args = .ok r) :
    ∃ s own, signatureOf sc callee = .ok s ∧ args.length = s.paramLanes.length ∧
      argumentsWith sc sub (args.zip s.paramLanes) = .ok own ∧
      r = (own ++ .one (.call callee), s.resultLane) := by
  simp only [callWith, bind_ok] at h
  obtain ⟨s, hs, h⟩ := h
  split at h
  · cases h
  · next harity =>
    simp only [bind_ok, pure_ok] at h
    obtain ⟨own, hown, rfl⟩ := h
    refine ⟨s, own, hs, ?_, hown, rfl⟩
    simpa [Signature.arity, Signature.paramLanes] using (Decidable.not_not.mp harity).symm

/-- An operand that is lowered as part of an expression is lowered by itself. -/
theorem Lower.lower_of_guarded {sc : Scope} {parent child : ExprId} {code : Code}
    (h : (if child < parent then lower sc child else .error (.danglingExpr parent child)) =
      .ok code) : lower sc child = .ok code := by
  split at h
  · exact h
  · cases h

/-! ## Values as they are -/

section Values

variable {sc : Scope} {id : ExprId}

theorem Lower.lower_ident {name : String} {v : Variable}
    (he : sc.arena.expr? id = some (.ident name)) (hv : sc.lookup name = .ok v) :
    lower sc id = .ok (.one (.get v)) := by
  rw [lower, descend_eq]
  simp only [lowerStep, Scope.expr_eq_ok.mpr he, hv, ok_bind]
  rfl

/-- Below the top of its range nothing is lost of a number that is read as a literal. -/
theorem Instr.wrapped_of_lt {n : Nat} (h : n < 2 ^ 31) : wrapped (Int64.ofInt n) = n := by
  have hlong : (n : Int).bmod Int64.size = n := Int.bmod_eq_of_le (by simp) (by simp; omega)
  rw [wrapped, Int64.toInt_toInt32, Int64.toInt_ofInt, hlong]
  exact Int.bmod_eq_of_le (by omega) (by omega)

/-- A constant is a literal, or the negative of one. -/
theorem Scope.constant?_literal (h : (sc.constant? id).isSome = true) :
    (∃ e lane, sc.arena.expr? id = some e ∧ e.literalLane? = some lane) ∨
    ∃ operand e lane, sc.arena.expr? id = some (.unary .neg operand) ∧
      sc.arena.expr? operand = some e ∧ e.literalLane? = some lane := by
  unfold constant? Constant.ofExpr? at h
  split at h
  · exact .inl ⟨_, _, ‹_›, rfl⟩
  · exact .inl ⟨_, _, ‹_›, rfl⟩
  · exact .inl ⟨_, _, ‹_›, rfl⟩
  · exact .inl ⟨_, _, ‹_›, rfl⟩
  · next operand he =>
    split at h
    · exact .inr ⟨operand, _, _, he, ‹_›, rfl⟩
    · exact .inr ⟨operand, _, _, he, ‹_›, rfl⟩
    · cases h
  · cases h

/-- A constant is lowered to itself in its own lane. -/
theorem Lower.lower_constant {lane : Lane} {c : Constant} (hc : sc.constant? id = some c)
    (hlane : sc.laneOf id = .ok lane) : lower sc id = .ok (.one (.constant c lane)) := by
  have hfold := hc
  unfold Scope.constant? Constant.ofExpr? at hc
  cases he : sc.arena.expr? id with
  | none => simp [he] at hc
  | some e =>
    have hexpr := Scope.expr_eq_ok.mpr he
    rw [he] at hc
    rw [lower, descend_eq]
    simp only [lowerStep, hexpr, ok_bind]
    cases e with
    | int value | float value =>
      cases hc
      cases hlane.symm.trans (Scope.laneOf_literal he rfl)
      rfl
    | bool value =>
      cases hc
      cases hlane.symm.trans (Scope.laneOf_literal he rfl)
      cases value <;> rfl
    | char value =>
      cases hc
      cases hlane.symm.trans (Scope.laneOf_literal he rfl)
      have hrange : value.toNat < 2 ^ 31 := by
        show value.val.toNat < 2 ^ 31
        rcases value.valid with hlow | ⟨-, hhigh⟩ <;> omega
      show _ = Except.ok (Code.one (.intConst (Instr.wrapped (Int64.ofInt value.toNat))))
      rw [Instr.wrapped_of_lt hrange]
      rfl
    | unary op operand =>
      cases op with
      | neg =>
        simp only [unaryWith, negateWith, hfold]
        -- What stands under the minus sign is a literal of the lane in question.
        rw [Scope.laneOf, descend_eq, ← Scope.laneOf] at hlane
        simp only [Scope.laneOfStep, hexpr, ok_bind, bind_ok,
          pure_ok] at hlane
        obtain ⟨inner, hinner, rfl⟩ := hlane
        split at hinner
        · cases ho : sc.arena.expr? operand with
          | none => simp [ho] at hc
          | some o =>
            simp only [ho] at hc
            cases o with
            | int value | float value =>
              cases hc
              cases hinner.symm.trans (Scope.laneOf_literal ho rfl)
              rfl
            | _ => cases hc
        · cases hinner
      | _ => cases hc
    | _ => cases hc

/-- A value is wanted as it is, unless just one of the lanes is that of floats. -/
theorem Lower.asLane_eq_lower {lane source : Lane} (hsource : sc.laneOf id = .ok source)
    (hsame : lane.isFloat = source.isFloat) : asLane sc id lane = lower sc id := by
  have hconvert : Instr.convert? source lane = none := by
    cases lane <;> cases source <;> first | rfl | cases hsame
  unfold asLane asLaneWith
  split
  · rfl
  · cases hc : sc.constant? id with
    | some c => simp only [lower_constant hc hsource, Instr.constant, hsame]
    | none =>
      simp only [hsource, ok_bind, hconvert]
      exact bind_pure _

end Values

end WasmBackend
