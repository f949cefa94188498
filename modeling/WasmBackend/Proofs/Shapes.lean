import WasmBackend.Proofs.Plans

/-!
# Properties that the rules of lowering keep

A rule of lowering puts the code of operands together in one of a few ways. A property of code that
each of these ways keeps (`Scope.Composes`) holds of all lowered expressions
(`Composes.lower`). The rules are gone through once, for any such property. Ways that only calls,
updates and assignments make use of may be left out, for the sake of expressions without them.

One such property is not to be empty: no use of an expression can get lost between statements and
their code.
-/

namespace WasmBackend

open Compiled Lower

/-- An expression without effects in it. -/
inductive Arena.EffectFree (arena : Arena) : ExprId → Prop
  | node {id : ExprId} {e : Expr} (he : arena.expr? id = some e) (heffect : e.hasEffect = false)
      (hchildren : ∀ child ∈ e.children, arena.EffectFree child) : arena.EffectFree id

theorem Arena.EffectFree.int {arena : Arena} {id : ExprId} {value : Int64}
    (he : arena.expr? id = some (.int value)) : arena.EffectFree id := .node he rfl nofun

/-! ## Ways to put code together -/

/-- What the rules do keeps the property. If `effects` does not hold, what only expressions with
effects are made of need not keep it. -/
structure Scope.Composes (sc : Scope) (effects : Prop) (Q : Code → Prop) : Prop where
  const : ∀ i, i.isPlain = true → i.operands? = some 0 → Q (.one i)
  get : ∀ name v, sc.lookup name = .ok v → Q (.one (.get v))
  flattened : ∀ base member v, sc.flattened? base member = some v → Q (.one (.get v))
  change : ∀ a i, i.operands? = some 1 → Q a → Q (a ++ .one i)
  combine : ∀ a b i, i.operands? = some 2 → Q a → Q b → Q (a ++ b ++ .one i)
  ifElse : ∀ a b c, Q a → Q b → Q c → Q (a ++ .ifElse b c)
  append : effects → ∀ a b, Q a → Q b → Q (a ++ b)
  plain : effects → ∀ i, i.isPlain = true → Q (.one i)
  set : effects → ∀ name v i, sc.lookup name = .ok v → Instr.set v = .ok i → Q (.one i)
  tee : effects → ∀ name v, sc.lookup name = .ok v → v.isLocal = true → Q (.one (.localTee v.name))
  teeFlattened : effects → ∀ base member v, sc.flattened? base member = some v →
    Q (.one (.localTee v.name))
  call : effects → ∀ callee s, signatureOf sc callee = .ok s → Q (.one (.call callee))

namespace Scope.Composes

variable {sc : Scope} {effects : Prop} {Q : Code → Prop} (hq : sc.Composes effects Q)
variable {sub : ExprId → Compiled Code} {id : ExprId} {code : Code}

include hq

/-! ## Values -/

theorem constant (c : Constant) (lane : Lane) : Q (.one (.constant c lane)) :=
  hq.const _ (Instr.constant_shape c lane).1 (Instr.constant_shape c lane).2

theorem flattenedMember {base : ExprId} {name : String} {v : Variable}
    (h : sc.flattenedMember? base name = some v) :
    Q (.one (.get v)) ∧ (effects → Q (.one (.localTee v.name))) := by
  unfold Scope.flattenedMember? at h
  split at h
  · next x _ => exact ⟨hq.flattened x name v h, fun he => hq.teeFlattened he x name v h⟩
  · cases h

theorem pushes {i : Instr} (h : sc.Pushes i) : Q (.one i) := by
  cases h with
  | plain hplain hi => exact hq.const i hplain hi
  | named hv => exact hq.get _ _ hv
  | flattened hv => exact (hq.flattenedMember hv).1

theorem wanted (want : Want) (hsub : ∀ own, sub id = .ok own → Q own)
    (h : want.code sc sub id = .ok code) : Q code := by
  obtain ⟨c, lane, -, rfl⟩ | ⟨own, after, hown, hafter, rfl⟩ := Want.code_ok h
  · exact hq.constant c lane
  · have hown := hsub own hown
    cases hafter with
    | none =>
      rw [Code.ofList, Code.append_nil]
      exact hown
    | change hi => exact hq.change own _ hi hown
    | @compare c i hplain hc hi =>
      have hcode := hq.combine own (.one c) i hi hown (hq.const c hplain hc)
      rwa [Code.append_assoc] at hcode

/-- By induction on the plan, each node of which is one of the ways. -/
theorem makes {p : Plan} (hsub : ∀ id ∈ p.operands, ∀ own, sub id = .ok own → Q own)
    (h : p.Makes sc sub code) : Q code := by
  induction p generalizing code with
  | operand id want => exact hq.wanted want (hsub id (List.mem_singleton.mpr rfl)) h
  | push i =>
    obtain ⟨hi, rfl⟩ := h
    exact hq.pushes hi
  | change i p ih =>
    obtain ⟨hi, a, ha, rfl⟩ := h
    exact hq.change a i hi (ih hsub ha)
  | combine i p q ihp ihq =>
    obtain ⟨hi, a, b, ha, hb, rfl⟩ := h
    obtain ⟨hleft, hright⟩ := List.forall_mem_append.mp hsub
    exact hq.combine a b i hi (ihp hleft ha) (ihq hright hb)
  | choose op p q ihp ihq =>
    obtain ⟨a, b, ha, hb, rfl⟩ := h
    obtain ⟨hleft, hright⟩ := List.forall_mem_append.mp hsub
    unfold chooseCode
    split
    · exact hq.ifElse _ _ _ (ihp hleft ha) (ihq hright hb) (hq.const _ rfl rfl)
    · exact hq.ifElse _ _ _ (ihp hleft ha) (hq.const _ rfl rfl) (ihq hright hb)

theorem memberPlace {base : ExprId} {name : String} {p : Place}
    (h : memberPlace sc base name = .ok p) : Q p.address := by
  obtain ⟨v, layout, s, hmember, -, rfl⟩ := memberPlace_ok h
  obtain ⟨x, -, -, -, hv, -⟩ := Scope.memberOf_ok hmember
  exact hq.get x v hv

/-! ## Effects -/

section Effects

variable (he : effects) {keep : Bool} {e : Expr} {values : List Plan} {after : List Instr}

include he

/-- Instructions in a row, if there is one. -/
theorem ofList {l : List Instr} (hne : l ≠ []) (h : ∀ i ∈ l, Q (.one i)) : Q (.ofList l) := by
  induction l with
  | nil => exact absurd rfl hne
  | cons i rest ih =>
    by_cases hrest : rest = []
    · subst hrest
      exact h i List.mem_cons_self
    · exact hq.append he (.one i) _ (h i List.mem_cons_self)
        (ih hrest fun j hj => h j (List.mem_cons_of_mem _ hj))

theorem afterwards (h : EffectRule sc keep e values after) : Q (.ofList after) := by
  cases h with
  | @update op _ name v set _ hv hset =>
    have hget := hq.get name v hv
    have hset := hq.set he name v set hv hset
    apply hq.ofList he (by simp)
    cases keep <;> cases v.ty.lane.isFloat <;> cases op <;>
      simpa [countBy, hget, hset] using ⟨hq.plain he _ rfl, hq.plain he _ rfl⟩
  | call hs =>
    have hdrop := hq.plain he .drop rfl
    refine hq.ofList he (List.cons_ne_nil _ _) ?_
    split <;> simp [hq.call he _ _ hs, hdrop]
  | assignVariable _ hv hset =>
    have hset := hq.set he _ _ _ hv hset
    split
    · split
      · next hlocal => exact hq.tee he _ _ hv hlocal
      · exact hq.append he _ _ hset (hq.get _ _ hv)
    · exact hset
  | assignFlattened _ hv =>
    obtain ⟨hget, htee⟩ := hq.flattenedMember hv
    refine hq.ofList he (List.cons_ne_nil _ _) ?_
    cases keep <;> simpa [hget, htee he] using hq.plain he _ rfl
  | assignPlace => exact hq.plain he _ rfl

/-- A call may have no arguments, but no rule is without instructions after its values. -/
theorem performs (hsub : ∀ id own, sub id = .ok own → Q own) (hafter : Q (.ofList after))
    (h : Performs sc sub values after code) : Q code := by
  induction values generalizing code with
  | nil => exact h ▸ hafter
  | cons p rest ih =>
    obtain ⟨a, others, ha, hothers, rfl⟩ := h
    exact hq.append he _ _ (hq.makes (fun id _ => hsub id) ha) (ih hothers)

end Effects

/-! ## Expressions -/

theorem lowerStep (hid : effects ∨ sc.arena.EffectFree id)
    (hsub : ∀ child own, sub child = .ok own → effects ∨ sc.arena.EffectFree child → Q own)
    (h : lowerStep sc id sub = .ok code) : Q code := by
  obtain ⟨e, he, ⟨p, hrule, hp⟩ | ⟨values, after, hrule, hvalues⟩⟩ := lowerStep_ok h
  · refine hq.makes (fun c hc own hown => hsub c own hown (hid.imp_right fun hfree => ?_)) hp
    obtain ⟨he', -, hchildren⟩ := hfree
    cases he.symm.trans he'
    exact hchildren c (hrule.operands_mem hc)
  · have heffects : effects := by
      refine hid.resolve_right fun hfree => ?_
      obtain ⟨he', heffect, -⟩ := hfree
      cases he.symm.trans he'
      rw [hrule.hasEffect] at heffect
      cases heffect
    exact hq.performs heffects (fun c own hown => hsub c own hown (.inl heffects))
      (hq.afterwards heffects hrule) hvalues

theorem lower (hid : effects ∨ sc.arena.EffectFree id) (h : lower sc id = .ok code) : Q code :=
  lower_induction (P := fun id code => effects ∨ sc.arena.EffectFree id → Q code)
    (fun _ _ _ hsub hcode hid => hq.lowerStep hid hsub hcode) h hid

theorem asLane {lane : Lane} (hid : effects ∨ sc.arena.EffectFree id)
    (h : asLane sc id lane = .ok code) : Q code :=
  hq.wanted (.inLane lane) (fun _ => hq.lower hid) h

theorem condition (he : effects) (h : condition sc id = .ok code) : Q code :=
  hq.wanted .condition (fun _ => hq.lower (.inl he)) h

theorem discard (he : effects) (h : discard sc id = .ok code) : Q code := by
  obtain ⟨e, -, ⟨values, after, hrule, hvalues⟩ | ⟨-, lane, own, -, hown, rfl⟩⟩ := discard_ok h
  · exact hq.performs he (fun _ _ => hq.lower (.inl he)) (hq.afterwards he hrule) hvalues
  · have hown := hq.lower (.inl he) hown
    unfold dropValue
    split
    · exact hown
    · exact hq.append he _ _ hown (hq.plain he _ rfl)

end Scope.Composes

/-! ## No expression is lowered to nothing -/

namespace Code

@[simp] theorem append_eq_nil {a b : Code} : a ++ b = .nil ↔ a = .nil ∧ b = .nil := by
  show a.append b = .nil ↔ _
  cases a <;> simp [append]

@[simp] theorem one_ne_nil (i : Instr) : one i ≠ .nil := nofun

@[simp] theorem ifElse_ne_nil (a b : Code) : ifElse a b ≠ .nil := nofun

end Code

/-- Whatever a rule puts together is not empty. -/
theorem Scope.composes_ne_nil (sc : Scope) : sc.Composes True (· ≠ .nil) := by
  constructor <;> intros <;> simp_all

theorem Lower.letCode_ne_nil {sc : Scope} {locals : Table String Variable} {decl : LetDecl}
    {r : Code × List String} (h : letCode sc locals decl = .ok r) : r.1 ≠ .nil := by
  unfold letCode at h
  obtain ⟨e, _, h⟩ := bind_ok.mp h
  split at h
  · simp only [bind_ok, pure_ok] at h
    obtain ⟨_, _, _, _, _, _, _, _, rfl⟩ := h
    simp
  · split at h
    · cases h
    · simp only [bind_ok, pure_ok] at h
      obtain ⟨_, _, rfl⟩ := h
      simp

end WasmBackend
