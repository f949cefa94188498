import WasmBackend.Proofs.Stack.Coherence

/-!
# What lowered operands leave

The rules of lowering take the code of subexpressions as a parameter `sub`, and so does the argument
here: an operand is *understood* if its code leaves the value that `pushedLane` says, provided that
the operand is coherent, and is refused otherwise. For each way to want an operand there is then one
lemma. It gives the type that is left, and says when this is the type that was wanted: exactly when
the operand's lane can be relied on.
-/

namespace WasmBackend

open Compiled Lower

/-! ## Instructions of one and two operands -/

namespace StackContext

variable {Γ : StackContext} {a b : Code} {t u : Option ValType} {i : Instr} {x y r : ValType}

theorem step_eq (hi : i ≠ .drop) (stack : List ValType) :
    Γ.step i stack = (Γ.type? i).bind fun t => (pop t.1 stack).map (t.2 ++ ·) := by
  cases i <;> first | rfl | exact absurd rfl hi

theorem Leaves.of_type (hi : Γ.type? i = some ([], [r])) : Γ.Leaves (.one i) (some r) := by
  intro stack
  rw [check_one, step_eq (by rintro rfl; cases hi), hi]
  rfl

theorem Leaves.unary (ha : Γ.Leaves a t) (hi : Γ.type? i = some ([x], [r])) :
    Γ.Leaves (a ++ .one i) (if t = some x then some r else none) := by
  refine ha.append fun stack => ?_
  cases t with
  | none => rfl
  | some t =>
    rw [Option.map_some, Option.bind_some, check_one, step_eq (by rintro rfl; cases hi), hi]
    by_cases h : x = t
    · simp [pop, h]
    · simp [pop, h, Ne.symm h]

theorem Leaves.binary (ha : Γ.Leaves a t) (hb : Γ.Leaves b u)
    (hi : Γ.type? i = some ([y, x], [r])) :
    Γ.Leaves (a ++ b ++ .one i) (if t = some x ∧ u = some y then some r else none) := by
  intro stack
  rw [check_append, check_append, ha stack]
  cases t with
  | none => rfl
  | some t =>
    rw [Option.map_some, Option.bind_some, hb]
    cases u with
    | none => simp
    | some u =>
      rw [Option.map_some, Option.bind_some, check_one, step_eq (by rintro rfl; cases hi), hi]
      by_cases h : y = u
      · by_cases h' : x = t
        · simp [pop, h, h']
        · simp [pop, h, h', Ne.symm h']
      · simp [pop, h, Ne.symm h]

/-- An operator whose second operand is a constant. -/
theorem Leaves.withConst {c : Instr} (ha : Γ.Leaves a t) (hc : Γ.type? c = some ([], [y]))
    (hi : Γ.type? i = some ([y, x], [r])) :
    Γ.Leaves (a ++ .ofList [c, i]) (if t = some x then some r else none) := by
  have hboth := ha.binary (Leaves.of_type hc) hi
  rw [Code.append_assoc] at hboth
  simp only [and_true] at hboth
  exact hboth

/-- A choice between two pieces of code that leave an integer. -/
theorem Leaves.choose {c : Code} {v : Option ValType} (hc : Γ.Leaves c v) (ha : Γ.Leaves a t)
    (hb : Γ.Leaves b u) :
    Γ.Leaves (c ++ .ifElse a b)
      (if v = some .i32 ∧ t = some .i32 ∧ u = some .i32 then some .i32 else none) := by
  refine hc.append fun stack => ?_
  match v with
  | none => rfl
  | some .f32 => rfl
  | some .i32 =>
    simp only [Option.map_some, Option.bind_some, Code.ifElse, check, ha.check_empty_iff,
      hb.check_empty_iff, true_and]
    split <;> rfl

/-- Code whose value is used in one type only. -/
theorem Leaves.check_used (ha : Γ.Leaves a t) {p : Bool} (hiff : t = some x ↔ p = true)
    {stack : List ValType} {r : Option (List ValType)}
    (hb : ∀ u, Γ.check b (u :: stack) = if x = u then r else none) :
    Γ.check (a ++ b) stack = if p then r else none := by
  rw [check_append, ha stack]
  cases t with
  | none =>
    have hp : p = false := Bool.eq_false_iff.mpr fun h => nomatch hiff.mpr h
    rw [hp]
    rfl
  | some u =>
    rw [Option.map_some, Option.bind_some, hb]
    by_cases h : x = u
    · rw [if_pos h, if_pos (hiff.mp (congrArg some h.symm))]
    · have hp : p = false :=
        Bool.eq_false_iff.mpr fun hp => h (Option.some.inj (hiff.mpr hp)).symm
      rw [if_neg h, hp]
      rfl

theorem Leaves.congr {code : Code} (h : Γ.Leaves code t) (heq : t = u) : Γ.Leaves code u := heq ▸ h

end StackContext

open StackContext

/-! ## Operands -/

/-- The code of the operand leaves what is pushed if the operand is coherent, and is refused if
not. -/
def Understood (sc : Scope) (sub : ExprId → Compiled Code) (id : ExprId) : Prop :=
  ∀ code, sub id = .ok code → ∃ pushed, sc.pushedLane id = .ok pushed ∧
    sc.declared.Leaves code (if sc.coherent id then some pushed.carried else none)

section Operands

variable {sc : Scope} {sub : ExprId → Compiled Code} {id : ExprId} {code : Code}

/-- As an address. -/
theorem Understood.address (h : Understood sc sub id) (hcode : sub id = .ok code) :
    ∃ t, sc.declared.Leaves code t ∧ (t = some .i32 ↔ sc.address sc.coherent id = true) := by
  obtain ⟨pushed, hpushed, hleaves⟩ := h code hcode
  refine ⟨_, hleaves, ?_⟩
  simp only [Scope.address, hpushed, Lane.carried]
  cases sc.coherent id <;> cases pushed.isFloat <;> simp

/-- In its own lane. -/
theorem Understood.own (h : Understood sc sub id) (hcode : sub id = .ok code) {lane : Lane}
    (hlane : sc.laneOf id = .ok lane) :
    ∃ t, sc.declared.Leaves code t ∧
      (t = some lane.carried ↔ sc.relied sc.coherent id = true) := by
  obtain ⟨pushed, hpushed, hleaves⟩ := h code hcode
  refine ⟨_, hleaves, ?_⟩
  simp only [Scope.relied, hpushed, hlane, Lane.carried]
  cases sc.coherent id <;> cases pushed.isFloat <;> cases lane.isFloat <;> simp

/-- A constant is what it looks like. -/
theorem constant_leaves (Γ : StackContext) (c : Constant) (lane : Lane) :
    Γ.Leaves (.one (.constant c lane)) (some lane.carried) := by
  unfold Instr.constant Lane.carried
  cases lane.isFloat <;> exact Leaves.of_type rfl

/-- In a given lane. -/
theorem asLaneWith_leaves (h : Understood sc sub id)
    (hconst : (sc.constant? id).isSome = true → sc.relied sc.coherent id = true) {lane : Lane}
    (hlane : lane ≠ .void) (hcode : asLaneWith sc sub id lane = .ok code) :
    ∃ t, sc.declared.Leaves code t ∧
      (t = some lane.carried ↔ sc.relied sc.coherent id = true) := by
  unfold asLaneWith at hcode
  rw [if_neg hlane] at hcode
  cases hc : sc.constant? id with
  | some c =>
    simp only [hc, Except.ok.injEq] at hcode
    subst hcode
    exact ⟨_, constant_leaves _ c lane, by simp [hconst (by simp [hc])]⟩
  | none =>
    simp only [hc, bind_ok] at hcode
    obtain ⟨source, hsource, inner, hinner, hcode⟩ := hcode
    obtain ⟨t, ht, hiff⟩ := h.own hinner hsource
    unfold Instr.convert? at hcode
    cases hs : source.isFloat <;> cases lane <;>
      simp only [hs, pure_ok] at hcode <;> subst hcode <;>
      simp only [Lane.carried, hs, Bool.false_eq_true, ↓reduceIte] at hiff
    case false.void | true.void => exact absurd rfl hlane
    case false.float =>
      exact ⟨_, ht.unary (x := .i32) (r := .f32) rfl,
        by simpa [Lane.carried, Lane.isFloat] using hiff⟩
    case true.int | true.bool =>
      exact ⟨_, ht.unary (x := .f32) (r := .i32) rfl,
        by simpa [Lane.carried, Lane.isFloat] using hiff⟩
    all_goals exact ⟨t, ht, hiff⟩

/-- As a condition. -/
theorem conditionWith_leaves (h : Understood sc sub id)
    (hcode : conditionWith sc sub id = .ok code) :
    ∃ t, sc.declared.Leaves code t ∧ (t = some .i32 ↔ sc.relied sc.coherent id = true) := by
  simp only [conditionWith, bind_ok] at hcode
  obtain ⟨lane, hlane, inner, hinner, hcode⟩ := hcode
  obtain ⟨t, ht, hiff⟩ := h.own hinner hlane
  cases hf : lane.isFloat <;>
    simp only [hf, Bool.false_eq_true, ↓reduceIte, pure_ok] at hcode <;> subst hcode <;>
    simp only [Lane.carried, hf, Bool.false_eq_true, ↓reduceIte] at hiff
  · exact ⟨t, ht, hiff⟩
  · exact ⟨_, ht.withConst (x := .f32) (y := .f32) (r := .i32) rfl rfl, by simpa using hiff⟩

/-- As zero or one. -/
theorem truthWith_leaves (h : Understood sc sub id) (hcode : truthWith sc sub id = .ok code) :
    ∃ t, sc.declared.Leaves code t ∧ (t = some .i32 ↔ sc.relied sc.coherent id = true) := by
  simp only [truthWith, bind_ok] at hcode
  obtain ⟨lane, hlane, inner, hinner, hcode⟩ := hcode
  obtain ⟨t, ht, hiff⟩ := conditionWith_leaves h hinner
  split at hcode <;> rw [pure_ok] at hcode <;> subst hcode
  · exact ⟨_, ht.withConst (x := .i32) (y := .i32) (r := .i32) rfl rfl, by simpa using hiff⟩
  · exact ⟨t, ht, hiff⟩

end Operands

end WasmBackend
