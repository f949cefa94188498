import WasmBackend.Proofs.Plans
import WasmBackend.Proofs.Stack.Operands

/-!
# The rules of lowering, validated

One lemma for each rule: given that its operands are understood, the code that the rule makes leaves
what is expected exactly if the rule's own condition of coherence holds, and is refused if it does
not.

The types in play are assumed not to be void, and no function without a result may be called:
nothing travels in the void lane, so there would be nothing to speak of.
-/

namespace WasmBackend

open Compiled Lower StackContext

/-! ## Assumptions -/

/-- No variable, element, member or parameter is of type `void`. -/
structure Scope.NonVoid (sc : Scope) : Prop where
  vars : ∀ name v, sc.lookup name = .ok v → v.ty ≠ .void
  elements : ∀ name v t, sc.lookup name = .ok v → v.ty.element? = some t → t ≠ .void
  members : ∀ name layout member m, sc.info.structLayout name = .ok layout →
    layout.member member = .ok m → m.ty ≠ .void
  params : ∀ callee s, signatureOf sc callee = .ok s → ∀ t ∈ s.params, t ≠ .void

/-- No function without a result is called in the expression. -/
def Scope.NoVoidCall (sc : Scope) (id : ExprId) : Prop :=
  ∀ inner callee args s, sc.arena.Within inner id →
    sc.arena.expr? inner = some (.call callee args) → signatureOf sc callee = .ok s →
    s.result ≠ .void

theorem Scope.NoVoidCall.within {sc : Scope} {id c : ExprId} (h : sc.NoVoidCall id)
    (hc : sc.arena.Within c id) : sc.NoVoidCall c :=
  fun inner callee args s hin => h inner callee args s (hin.trans hc)

/-- What is said of an expression is said of everything in it. -/
theorem Scope.NoVoidCall.operand {sc : Scope} {id c : ExprId} {e : Expr} (h : sc.NoVoidCall id)
    (he : sc.arena.expr? id = some e) (hc : ∃ child ∈ e.children, sc.arena.Within c child) :
    sc.NoVoidCall c := by
  obtain ⟨child, hchild, hc⟩ := hc
  exact h.within (.operand he hchild hc)

theorem Ty.lane_ne_void {t : Ty} (h : t ≠ .void) : t.lane ≠ .void := mt lane_eq_void_iff.mp h

theorem Scope.NonVoid.paramLanes_ne_void {sc : Scope} (hnv : sc.NonVoid) {callee : String}
    {s : Signature} (hs : signatureOf sc callee = .ok s) : ∀ lane ∈ s.paramLanes, lane ≠ .void := by
  intro lane hlane
  obtain ⟨t, ht, rfl⟩ := List.mem_map.mp hlane
  exact Ty.lane_ne_void (hnv.params callee s hs t ht)

theorem Scalar.lane_ne_void (s : Scalar) : s.lane ≠ .void := by cases s <;> simp [lane]

/-- Storing keeps the machine type. -/
theorem Ty.storage?_carried {t : Ty} {s : Scalar} (h : t.storage? = some s) :
    s.lane.carried = t.lane.carried := by
  cases t <;> cases h <;> rfl

/-! ## Constants -/

section Constants

variable {sc : Scope} {id : ExprId} {e : Expr}

/-- An expression that is neither an assignment nor a name pushes its lane. -/
theorem Scope.pushedLane_eq_laneOf (he : sc.arena.expr? id = some e)
    (hassign : ∀ target value, e ≠ .assign target value) (hident : ∀ name, e ≠ .ident name) :
    sc.pushedLane id = sc.laneOf id := by
  unfold pushedLane
  rw [expr_eq_ok.mpr he, ok_bind]
  cases e with
  | assign target value => exact absurd rfl (hassign target value)
  | ident name => exact absurd rfl (hident name)
  | _ => rfl

/-- Apart from names and assignments, an expression leaves what its lane says if it is coherent. -/
theorem Scope.relied_of_laneOf (he : sc.arena.expr? id = some e)
    (hassign : ∀ target value, e ≠ .assign target value) (hident : ∀ name, e ≠ .ident name)
    {lane : Lane} (hlane : sc.laneOf id = .ok lane) :
    sc.relied sc.coherent id = sc.coherent id := by
  simp [relied, pushedLane_eq_laneOf he hassign hident, hlane]

variable (harena : sc.arena.Descending)

include harena

theorem relied_literal {lane : Lane} (he : sc.arena.expr? id = some e)
    (h : e.literalLane? = some lane) : sc.relied sc.coherent id = true := by
  rw [Scope.relied_of_laneOf he (by rintro _ _ rfl; cases h) (by rintro _ rfl; cases h)
    (Scope.laneOf_literal he h), Scope.coherent_eq harena he]
  cases e <;> cases h <;> rfl

/-- A constant is relied on for what it is. -/
theorem relied_constant (h : (sc.constant? id).isSome = true) :
    sc.relied sc.coherent id = true := by
  obtain ⟨e, lane, he, hlane⟩ | ⟨operand, e, lane, he, hoperand, hlane⟩ :=
    Scope.constant?_literal h
  · exact relied_literal harena he hlane
  · have hid := Scope.laneOf_eq harena he
    simp only [Scope.laneOfStep, Scope.expr_eq_ok.mpr he, ok_bind,
      Scope.laneOf_literal hoperand hlane] at hid
    rw [Scope.relied_of_laneOf he (by simp) (by simp) hid, Scope.coherent_eq harena he]
    exact relied_literal harena hoperand hlane

end Constants

/-! ## Variables -/

section Variables

variable {sc : Scope} {v : Variable} {base : ExprId} {name : String}

theorem Scope.Declares.leaves (h : sc.Declares v) :
    sc.declared.Leaves (.one (.get v)) (some v.heldLane.carried) := by
  intro stack
  rw [check_one, h.get]
  rfl

theorem heldLane_of_isLocal (h : v.isLocal = true) : v.heldLane = v.ty.lane := by
  unfold Variable.isLocal at h
  unfold Variable.heldLane
  split at h <;> simp_all

/-- The local of a member is declared. -/
theorem flattenedMember?_declares (hdecl : sc.WellDeclared)
    (h : sc.flattenedMember? base name = some v) :
    v.isLocal = true ∧ ∃ flattened, sc.lookup flattened = .ok v := by
  unfold Scope.flattenedMember? at h
  split at h
  · obtain ⟨hlocal, hlookup⟩ := hdecl.flattened _ _ v h
    exact ⟨hlocal, _, hlookup⟩
  · cases h

/-- A member is reached through a variable that holds an address. -/
theorem heldLane_of_memberOf {layout : MemberLayout} (h : sc.memberOf base name = .ok (v, layout)) :
    v.heldLane.carried = .i32 := by
  obtain ⟨x, structName, -, -, -, hname, -, -⟩ := Scope.memberOf_ok h
  have hlane : v.ty.lane = .int := by
    cases hty : v.ty <;> rw [hty] at hname <;> first | rfl | cases hname
  unfold Variable.heldLane
  split <;> first | rfl | rw [hlane]; rfl

end Variables

/-! ## Values -/

section Values

variable {sc : Scope} (harena : sc.arena.Descending) (hdecl : sc.WellDeclared)
variable {sub : ExprId → Compiled Code} {id : ExprId} {e : Expr} {p : Plan} {code : Code}

theorem intConst_leaves {Γ : StackContext} (n : Int) :
    Γ.Leaves (.one (.intConst n)) (some .i32) :=
  Leaves.of_type rfl

/-- What is loaded from an element is in the lane of the elements. -/
theorem elementScalar_carried {base : ExprId} {s : Scalar} (h : sc.elementScalar base = .ok s) :
    ∃ e element, sc.expr base = .ok e ∧ sc.elementType e = .ok element ∧
      s.lane.carried = ((element.map Ty.lane).getD .int).carried := by
  simp only [Scope.elementScalar, bind_ok, pure_ok] at h
  obtain ⟨e, he, element, helement, rfl⟩ := h
  refine ⟨e, element, he, helement, ?_⟩
  cases element with
  | none => rfl
  | some t =>
    cases hs : t.storage? with
    | none =>
      -- Only `void` is not stored.
      cases t <;> cases hs
      rfl
    | some s => simpa [hs] using Ty.storage?_carried hs

/-- The operands and the result of an operator in a lane. -/
theorem type?_binary {Γ : StackContext} {op : BinaryOp} {float : Bool}
    (hlogical : op.isLogical = false) (hint : (float && op.isIntegerOnly) = false) :
    Γ.type? (.binary op float) =
      some ([if float then .f32 else .i32, if float then .f32 else .i32],
        [if float && !op.isComparison then .f32 else .i32]) := by
  cases op <;> cases float <;>
    first | rfl | exact absurd hlogical (by decide) | exact absurd hint (by decide)

include harena

/-- The value that is loaded from a place is in the lane of the expression. -/
theorem PlaceRule.laneOf {s : Scalar} {offset : Nat} (h : PlaceRule sc e p s offset)
    (hmemory : sc.InMemory e) (he : sc.arena.expr? id = some e) :
    ∃ lane, sc.laneOf id = .ok lane ∧ lane.carried = s.lane.carried := by
  have hstep := Scope.laneOf_eq harena he
  simp only [Scope.laneOfStep, Scope.expr_eq_ok.mpr he, ok_bind] at hstep
  cases h with
  -- Whichever way an element is addressed, its type is found in the same way.
  | first hs | element hs | scaled hs =>
    obtain ⟨e', element, he', helement, hcarried⟩ := elementScalar_carried hs
    refine ⟨(element.map Ty.lane).getD .int, ?_, hcarried.symm⟩
    rw [Scope.laneOf_index he, he']
    simp only [ok_bind, helement]
    rfl
  | @member _ base name v layout _ he' hmember hs =>
    refine ⟨layout.ty.lane, ?_, (Ty.storage?_carried hs).symm⟩
    rcases he' with rfl | rfl
    · rw [hstep]
      simp only [hmemory base name rfl, hmember]
      rfl
    · rw [hstep]
      simp only [hmember]
      rfl
  | deref hs =>
    refine ⟨s.lane, ?_, rfl⟩
    rw [hstep]
    simp only [hs]
    rfl

variable (hoperands : ∀ c ∈ p.operands, Understood sc sub c)

include hdecl hoperands

/-- A place is reached through an integer exactly if what it is reached by is coherent. -/
theorem PlaceRule.leaves {s : Scalar} {offset : Nat} (h : PlaceRule sc e p s offset)
    (hp : p.Makes sc sub code) :
    ∃ t, sc.declared.Leaves code t ∧ (t = some .i32 ↔ sc.coherentWith sc.coherent e = true) := by
  cases h with
  | @first base position _ _ hposition =>
    obtain ⟨t, ht, hiff⟩ := (hoperands base (.head _)).address hp
    refine ⟨t, ht, ?_⟩
    simp [hiff, Scope.coherentWith, relied_literal harena hposition rfl]
  | @element base position =>
    obtain ⟨-, a, b, ha, hb, rfl⟩ := hp
    obtain ⟨t, ht, htiff⟩ := (hoperands base (.head _)).address ha
    obtain ⟨u, hu, huiff⟩ := asLaneWith_leaves (hoperands position (.tail _ (.head _)))
      (relied_constant harena) (by simp) hb
    refine ⟨_, ht.binary hu rfl, ?_⟩
    simp only [Lane.carried_int] at huiff
    simp [Scope.coherentWith, htiff, huiff]
  | @scaled base position =>
    obtain ⟨-, a, _, ha, ⟨-, b, _, hb, ⟨-, rfl⟩, rfl⟩, rfl⟩ := hp
    obtain ⟨t, ht, htiff⟩ := (hoperands base (.head _)).address ha
    obtain ⟨u, hu, huiff⟩ := asLaneWith_leaves (hoperands position (.tail _ (.head _)))
      (relied_constant harena) (by simp) hb
    -- The position is multiplied by a constant, which is an integer whatever the position is.
    have hscaled := hu.binary (intConst_leaves s.size) (i := .intBinary .mul) rfl
    refine ⟨_, ht.binary hscaled rfl, ?_⟩
    simp only [Lane.carried_int] at huiff
    simp [Scope.coherentWith, htiff, huiff]
  | member he hmember =>
    obtain ⟨-, rfl⟩ := hp
    obtain ⟨x, -, -, -, hv, -⟩ := Scope.memberOf_ok hmember
    refine ⟨_, (hdecl.lookup x _ hv).leaves, ?_⟩
    rcases he with rfl | rfl <;> simp [heldLane_of_memberOf hmember, Scope.coherentWith]
  | @deref operand => exact (hoperands operand (.head _)).address hp

/-- What is made after a rule is in the lane of the expression, exactly if that is coherent. -/
theorem ValueRule.leaves (he : sc.arena.expr? id = some e) (h : ValueRule sc id e p)
    (hident : ∀ name, e ≠ .ident name) (hp : p.Makes sc sub code) :
    ∃ lane, sc.laneOf id = .ok lane ∧ sc.declared.Leaves code
      (if sc.coherentWith sc.coherent e then some lane.carried else none) := by
  have hlane := Scope.laneOf_eq harena he
  simp only [Scope.laneOfStep, Scope.expr_eq_ok.mpr he, ok_bind] at hlane
  cases h with
  | literal hi =>
    obtain ⟨-, rfl⟩ := hp
    cases e <;> first
      | cases hi
        exact ⟨_, Scope.laneOf_literal he rfl, Leaves.of_type rfl⟩
      | obtain ⟨address, -, rfl⟩ := Option.map_eq_some_iff.mp hi
        exact ⟨_, Scope.laneOf_literal he rfl, Leaves.of_type rfl⟩
      | cases hi
  | named => exact absurd rfl (hident _)
  | @flattened base name v hv =>
    obtain ⟨-, rfl⟩ := hp
    obtain ⟨hlocal, n, hlookup⟩ := flattenedMember?_declares hdecl hv
    simp only [hv] at hlane
    refine ⟨v.ty.lane, hlane, ?_⟩
    rw [← heldLane_of_isLocal hlocal]
    exact (hdecl.lookup n v hlookup).leaves
  | @load e q s offset hplace hmemory =>
    obtain ⟨-, a, ha, rfl⟩ := hp
    have hoperands : ∀ c ∈ q.operands, Understood sc sub c := hoperands
    obtain ⟨t, ht, hiff⟩ := hplace.leaves harena hdecl hoperands ha
    obtain ⟨lane, hlane, hcarried⟩ := hplace.laneOf harena hmemory he
    have hleaves := ht.unary (i := .load s offset) (x := .i32) rfl
    simp only [hiff, ← hcarried] at hleaves
    exact ⟨lane, hlane, hleaves⟩
  | @logical op left right hlogical =>
    obtain ⟨a, b, ha, hb, rfl⟩ := hp
    obtain ⟨t, ht, htiff⟩ := truthWith_leaves (hoperands left (.head _)) ha
    obtain ⟨u, hu, huiff⟩ := truthWith_leaves (hoperands right (.tail _ (.head _))) hb
    refine ⟨.bool, by simpa [hlogical] using hlane, ?_⟩
    unfold chooseCode
    split
    · exact (ht.choose hu (intConst_leaves 0)).congr (by simp [htiff, huiff, Scope.coherentWith])
    · exact (ht.choose (intConst_leaves 1) hu).congr (by simp [htiff, huiff, Scope.coherentWith])
  | @binary op left right leftLane rightLane hlogical hleft hright hinteger =>
    obtain ⟨-, a, b, ha, hb, rfl⟩ := hp
    have hpromote : Scope.promote leftLane rightLane ≠ .void := by
      unfold Scope.promote
      split <;> simp
    have hcarried : (Scope.promote leftLane rightLane).carried =
        if leftLane.isFloat || rightLane.isFloat then .f32 else .i32 := by
      unfold Scope.promote
      split <;> rfl
    obtain ⟨t, ht, htiff⟩ := asLaneWith_leaves (hoperands left (.head _))
      (relied_constant harena) hpromote ha
    obtain ⟨u, hu, huiff⟩ := asLaneWith_leaves (hoperands right (.tail _ (.head _)))
      (relied_constant harena) hpromote hb
    have htype := type?_binary (Γ := sc.declared) hlogical hinteger
    rw [← hcarried] at htype
    have hleaves := ht.binary hu htype
    simp only [htiff, huiff, ← Bool.and_eq_true] at hleaves
    cases hcmp : op.isComparison with
    | true => exact ⟨.bool, by simpa [hcmp] using hlane,
      by simpa [hcmp, Scope.coherentWith] using hleaves⟩
    | false =>
      simp only [hcmp, hlogical, hleft, hright, ok_bind] at hlane
      refine ⟨Scope.promote leftLane rightLane, hlane, ?_⟩
      rw [hcarried]
      simpa [hcmp, Scope.coherentWith] using hleaves
  | @negative operand c lane hc hoperand =>
    obtain ⟨-, rfl⟩ := hp
    -- A negated constant is folded, and then the operand is a literal number.
    have hrelied : sc.relied sc.coherent id = true := relied_constant harena (by rw [hc]; rfl)
    have hcoherent : sc.coherentWith sc.coherent (.unary .neg operand) = true := by
      rw [← Scope.coherent_eq harena he]
      exact (Bool.and_eq_true_iff.mp hrelied).1
    simp only [hoperand] at hlane
    rw [hcoherent]
    refine ⟨_, hlane, (constant_leaves _ c lane).congr ?_⟩
    cases lane <;> rfl
  | @negateFloat operand lane hoperand hfloat =>
    obtain ⟨-, a, ha, rfl⟩ := hp
    obtain ⟨t, ht, hiff⟩ := (hoperands operand (.head _)).own ha hoperand
    have hleaves := ht.unary (i := .floatNeg) (x := .f32) rfl
    simp only [Lane.carried, hfloat, ↓reduceIte] at hiff
    simp only [hiff] at hleaves
    simp only [hoperand, ok_bind, hfloat] at hlane
    exact ⟨.float, hlane, hleaves⟩
  | @negateInt operand lane hoperand hfloat =>
    obtain ⟨-, _, b, ⟨-, rfl⟩, hb, rfl⟩ := hp
    obtain ⟨t, ht, hiff⟩ := asLaneWith_leaves (hoperands operand (.head _))
      (relied_constant harena) (by simp) hb
    have hleaves := (intConst_leaves 0).binary ht (i := .intBinary .sub) rfl
    simp only [true_and, ← Lane.carried_int, hiff] at hleaves
    simp only [hoperand, ok_bind, hfloat] at hlane
    exact ⟨.int, hlane, hleaves⟩
  | @not operand =>
    obtain ⟨-, a, ha, rfl⟩ := hp
    obtain ⟨t, ht, hiff⟩ := conditionWith_leaves (hoperands operand (.head _)) ha
    have hleaves := ht.unary (i := .intEqz) (x := .i32) rfl
    simp only [hiff] at hleaves
    exact ⟨.bool, hlane, hleaves⟩
  | @bitNot operand =>
    obtain ⟨-, a, _, ha, ⟨-, rfl⟩, rfl⟩ := hp
    obtain ⟨t, ht, hiff⟩ := asLaneWith_leaves (hoperands operand (.head _))
      (relied_constant harena) (by simp) ha
    have hleaves := ht.binary (intConst_leaves (-1)) (i := .intBinary .xor) rfl
    simp only [and_true, ← Lane.carried_int, hiff] at hleaves
    exact ⟨.int, hlane, hleaves⟩

end Values

/-! ## Calls -/

section Calls

variable {sc : Scope} (harena : sc.arena.Descending) {sub : ExprId → Compiled Code} {code : Code}

theorem pop_append (ts us stack : List ValType) :
    pop (ts ++ us) stack = (pop ts stack).bind (pop us) := by
  induction ts generalizing stack with
  | nil => rfl
  | cons t ts ih =>
    cases stack with
    | nil => rfl
    | cons u stack =>
      simp only [List.cons_append, pop]
      split
      · exact ih stack
      · rfl

theorem filterMap_valType? {lanes : List Lane} (h : ∀ l ∈ lanes, l ≠ .void) :
    lanes.filterMap Lane.valType? = lanes.map Lane.carried := by
  induction lanes with
  | nil => rfl
  | cons lane rest ih =>
    obtain ⟨hlane, hrest⟩ := List.forall_mem_cons.mp h
    rw [List.filterMap_cons_some (Lane.valType?_of_ne_void hlane), ih hrest, List.map_cons]

include harena

/-- The arguments are what the callee takes off the stack exactly if the lane of each can be relied
on. -/
theorem arguments_check {args : List (ExprId × Lane)} {after : List Instr}
    {r : List ValType → Option (List ValType)}
    (hargs : ∀ a ∈ args, Understood sc sub a.1) (hlanes : ∀ a ∈ args, a.2 ≠ .void)
    (h : Performs sc sub (args.map fun a => .operand a.1 (.inLane a.2)) after code)
    (hafter : ∀ stack, sc.declared.check (.ofList after) stack =
      (pop (args.map fun a => a.2.carried).reverse stack).bind r) (stack : List ValType) :
    sc.declared.check code stack =
      if args.all fun a => sc.relied sc.coherent a.1 then r stack else none := by
  induction args generalizing code stack r with
  | nil =>
    subst h
    exact hafter stack
  | cons a rest ih =>
    obtain ⟨arg, lane⟩ := a
    obtain ⟨harg, hrest⟩ := List.forall_mem_cons.mp hargs
    obtain ⟨hlane, hlanes⟩ := List.forall_mem_cons.mp hlanes
    obtain ⟨first, others, hfirst, hothers, rfl⟩ := h
    obtain ⟨t, ht, hiff⟩ := asLaneWith_leaves harg (relied_constant harena) hlane hfirst
    -- After the others, what is left to take off is the first argument.
    have hothers := ih hrest hlanes hothers (r := fun stack => (pop [lane.carried] stack).bind r)
      fun stack => by
        rw [hafter, List.map_cons, List.reverse_cons, pop_append, Option.bind_assoc]
    rw [ht.check_used hiff (r := if rest.all fun a => sc.relied sc.coherent a.1 then r stack
      else none)]
    · simp only [List.all_cons, Bool.and_eq_true, ite_and]
    · intro u
      rw [hothers]
      by_cases heq : lane.carried = u <;> simp [pop, heq]

end Calls

/-! ## Effects -/

section Effects

variable {sc : Scope} (harena : sc.arena.Descending) (hdecl : sc.WellDeclared) (hnv : sc.NonVoid)
variable {sub : ExprId → Compiled Code} {id : ExprId} {e : Expr} {keep : Bool} {code : Code}
variable {values : List Plan} {after : List Instr}

theorem step_store {Γ : StackContext} (s : Scalar) (offset : Nat) (t u : ValType)
    (stack : List ValType) :
    Γ.step (.store s offset) (t :: u :: stack) =
      if s.lane.carried = t then if .i32 = u then some stack else none else none := by
  simp only [step, type?, Option.bind_some, pop]
  split <;> first | rfl | split <;> rfl

/-- A value that is stored at an address under it. -/
theorem StackContext.Leaves.check_stored {Γ : StackContext} {a b rest : Code} {t u : Option ValType}
    {y : ValType} {p q : Bool} {stack : List ValType} {r : Option (List ValType)}
    (ha : Γ.Leaves a t) (hb : Γ.Leaves b u) (htiff : t = some .i32 ↔ p = true)
    (huiff : u = some y ↔ q = true) (hrest : ∀ x z, Γ.check rest (z :: x :: stack) =
      if y = z then if .i32 = x then r else none else none) :
    Γ.check (a ++ (b ++ rest)) stack = if p && q then r else none := by
  rw [ha.check_used htiff (r := if q then r else none)]
  · cases p <;> simp
  · intro x
    rw [hb.check_used huiff (hrest x)]
    cases q <;> simp

theorem Lane.carried_of_plain {lane lane' : Lane} (h : lane.plain = lane'.plain) :
    lane.carried = lane'.carried := by
  cases lane <;> cases lane' <;> cases h <;> rfl

include harena hdecl hnv

/-- An expression with an effect leaves what is pushed, if that is wanted, exactly if it is
coherent. -/
theorem EffectRule.check (he : sc.arena.expr? id = some e) (hcalls : sc.NoVoidCall id)
    (h : EffectRule sc keep e values after)
    (hoperands : ∀ p ∈ values, ∀ c ∈ p.operands, Understood sc sub c)
    (hvalues : Performs sc sub values after code) :
    ∃ pushed, (keep = true → sc.pushedLane id = .ok pushed) ∧ ∀ stack,
      sc.declared.check code stack =
        if sc.coherentWith sc.coherent e then
          some (if keep then pushed.carried :: stack else stack)
        else none := by
  have hexpr := Scope.expr_eq_ok.mpr he
  cases h with
  | @update op operand name v set hoperand hv hset =>
    obtain ⟨hget, hset', -⟩ := hdecl.lookup name v hv
    obtain ⟨hheld, hstore⟩ := hset' set hset
    rw [hheld] at hget
    refine ⟨v.ty.lane, fun _ => ?_, fun stack => ?_⟩
    · rw [Scope.pushedLane_eq_laneOf he (by simp) (by simp), Scope.laneOf_eq harena he]
      simp only [Scope.laneOfStep, hexpr, Scope.expr_eq_ok.mpr hoperand, ok_bind, hv]
      rfl
    · subst hvalues
      cases hf : v.ty.lane.isFloat <;> cases op <;> cases keep <;>
        simp [countBy, hget, hstore, Lane.carried, hf, FloatOp.result, Scope.coherentWith]
  | @call callee args s hs hlength =>
    have hlanes := hnv.paramLanes_ne_void hs
    have hvoid : s.resultLane ≠ .void := Ty.lane_ne_void (hcalls id callee args s .refl he hs)
    obtain ⟨result, hresult, hplain⟩ := Scope.callLane_plain hs hlanes
    -- There are as many arguments as parameters, and no parameter is void: none gets lost.
    have hparams : (funcType s).params = (args.zip s.paramLanes).map fun a => a.2.carried := by
      rw [show (args.zip s.paramLanes).map (fun a => a.2.carried) =
        ((args.zip s.paramLanes).map Prod.snd).map Lane.carried by simp,
        List.map_snd_zip (by omega)]
      exact filterMap_valType? hlanes
    have hall : ((args.zip s.paramLanes).all fun a => sc.relied sc.coherent a.1) =
        args.all (sc.relied sc.coherent) := by
      conv => rhs; rw [← @List.map_fst_zip _ _ args s.paramLanes (by omega)]
      rw [List.all_map]
      rfl
    refine ⟨result, fun _ => ?_, fun stack => ?_⟩
    · rw [Scope.pushedLane_eq_laneOf he (by simp) (by simp), Scope.laneOf_call he, hresult]
    · rw [arguments_check harena (r := fun stack =>
          some (if keep then result.carried :: stack else stack))
        (fun a ha => hoperands _ (List.mem_map_of_mem ha) a.1 (.head _))
        (fun a ha => hlanes a.2 (List.of_mem_zip ha).2) hvalues ?_ stack, hall]
      · rfl
      · intro stack
        rw [check_ofList_cons, ← hparams, Lane.carried_of_plain hplain]
        simp only [step, type?, Scope.declared, hs, Except.toOption, Option.map_some,
          Option.bind_some]
        cases pop (funcType s).params.reverse stack <;> cases keep <;>
          simp [hvoid, funcType, Lane.valType?_of_ne_void hvoid]
  | @assignVariable target value name v set htarget hv hset =>
    obtain ⟨inner, _, hinner, rfl, rfl⟩ := hvalues
    obtain ⟨hget, hset', htee⟩ := hdecl.lookup name v hv
    obtain ⟨hheld, hstore⟩ := hset' set hset
    obtain ⟨t, ht, hiff⟩ := asLaneWith_leaves (hoperands _ (.head _) value (.head _))
      (relied_constant harena) (Ty.lane_ne_void (hnv.vars name v hv)) hinner
    refine ⟨v.ty.lane, fun _ => ?_, fun stack => ?_⟩
    · simp only [Scope.pushedLane, hexpr, ok_bind, Scope.laneOf_ident htarget, hv]
      rfl
    · simp only [Scope.coherentWith, htarget, Option.elim_some, Scope.placed, Bool.true_and]
      -- The value fits if the lane that it was brought into is that of the variable.
      refine ht.check_used hiff fun u => ?_
      cases keep <;> cases hlocal : v.isLocal <;> by_cases hu : v.ty.lane.carried = u <;>
        simp [hstore, hget, hheld, htee, hlocal, hu]
  | @assignFlattened target value base name v p s offset htarget hflattened hplace =>
    obtain ⟨address, _, haddress, ⟨inner, _, hinner, rfl, rfl⟩, rfl⟩ := hvalues
    obtain ⟨hlocal, flattened, hv⟩ := flattenedMember?_declares hdecl hflattened
    obtain ⟨hget, -, htee⟩ := hdecl.lookup flattened v hv
    obtain ⟨t, ht, htiff⟩ := hplace.leaves harena hdecl (hoperands p (.head _)) haddress
    obtain ⟨u, hu, huiff⟩ := asLaneWith_leaves (hoperands _ (.tail _ (.head _)) value (.head _))
      (relied_constant harena) (Ty.lane_ne_void (hnv.vars flattened v hv)) hinner
    obtain ⟨w, layout, hmember, hcarried⟩ : ∃ w layout, sc.memberOf base name = .ok (w, layout) ∧
        s.lane.carried = layout.ty.lane.carried := by
      cases hplace with
      | member he hmember hs =>
        rcases he with he | he <;> cases he
        exact ⟨_, _, hmember, Ty.storage?_carried hs⟩
    -- The value is stored twice, in the local and in memory, and has to fit both.
    have hlanes : s.lane.carried = v.ty.lane.carried ↔
        (layout.ty.lane.isFloat == v.ty.lane.isFloat) = true := by
      rw [hcarried, Lane.carried_eq_iff, beq_iff_eq]
    refine ⟨v.ty.lane, fun _ => ?_, fun stack => ?_⟩
    · simp only [Scope.pushedLane, hexpr, ok_bind]
      rw [Scope.laneOf_eq harena htarget]
      simp only [Scope.laneOfStep, Scope.expr_eq_ok.mpr htarget, ok_bind, hflattened]
    · rw [ht.check_stored hu htiff huiff (r := if s.lane.carried = v.ty.lane.carried then
        some (if keep then v.ty.lane.carried :: stack else stack) else none)]
      · simp only [Scope.coherentWith, htarget, Option.elim_some, Scope.placed, hflattened, hmember,
          hlanes]
        cases layout.ty.lane.isFloat == v.ty.lane.isFloat <;> simp
      · intro x z
        rw [check_ofList_cons, htee hlocal]
        by_cases hz : v.ty.lane.carried = z
        · subst hz
          simp only [if_true, Option.bind_some, check_ofList_cons, step_store]
          split <;> split <;> cases keep <;> simp_all [heldLane_of_isLocal hlocal]
        · simp [hz]
  | @assignPlace target value e p s offset htarget hkeep hplace hmemory =>
    subst hkeep
    obtain ⟨address, _, haddress, ⟨inner, _, hinner, rfl, rfl⟩, rfl⟩ := hvalues
    obtain ⟨t, ht, htiff⟩ := hplace.leaves harena hdecl (hoperands p (.head _)) haddress
    obtain ⟨u, hu, huiff⟩ := asLaneWith_leaves (hoperands _ (.tail _ (.head _)) value (.head _))
      (relied_constant harena) (Scalar.lane_ne_void _) hinner
    -- A member of a flattened struct is not a place, but then there is no such rule for it.
    have hplaced : sc.placed sc.coherent e = sc.coherentWith sc.coherent e := by
      cases hplace with
      | @member _ base name _ _ _ he =>
        rcases he with rfl | rfl
        · simp only [Scope.placed, hmemory base name rfl, Scope.coherentWith]
        · rfl
      | _ => rfl
    refine ⟨.int, (by intro h; cases h), fun stack => ?_⟩
    rw [ht.check_stored hu htiff huiff (r := some stack)]
    · rw [← hplaced]
      simp only [Scope.coherentWith, htarget, Option.elim_some]
      rfl
    · intro x z
      rw [check_ofList_cons, step_store]
      split <;> first | rfl | split <;> rfl

end Effects

end WasmBackend
