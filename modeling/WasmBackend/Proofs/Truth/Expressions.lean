import WasmBackend.Proofs.Truth.Discipline

/-!
# The code of disciplined expressions

Variables, members, calls and assignments, and from them whole expressions: the code of an
expression that keeps the discipline is accepted, and it leaves a bit if the form of the expression
says so (`lower_yields`). An expression for its effect is accepted too (`discard_flags`). Statements
are left to `Truth.Bodies`.
-/

namespace WasmBackend

open Compiled Lower

/-! ## Values -/

section Values

variable {sc : Scope} (hsc : sc.AllKept) {sub : ExprId → Compiled Code} {id : ExprId} {e : Expr}
variable {p : Plan} {code : Code}
variable (hoperands : ∀ c ∈ p.operands, ∀ code, sub c = .ok code → sc.Yields c code)

include hsc hoperands

theorem PlaceRule.yields {s : Scalar} {offset : Nat} (h : PlaceRule sc e p s offset)
    (hp : p.Makes sc sub code) : ∃ flag, sc.bits.Leaves code flag := by
  cases h with
  | first | deref =>
    obtain ⟨flag, hflag, -⟩ := hoperands _ (.head _) code hp
    exact ⟨flag, hflag⟩
  | element =>
    obtain ⟨-, a, b, ha, hb, rfl⟩ := hp
    obtain ⟨_, ha, -⟩ := hoperands _ (.head _) a ha
    obtain ⟨_, hb, -⟩ := asLaneWith_yields (hoperands _ (.tail _ (.head _))) hb
    exact ⟨_, ha.binary hb rfl⟩
  | scaled =>
    obtain ⟨-, a, _, ha, ⟨-, b, _, hb, ⟨-, rfl⟩, rfl⟩, rfl⟩ := hp
    obtain ⟨_, ha, -⟩ := hoperands _ (.head _) a ha
    obtain ⟨_, hb, -⟩ := asLaneWith_yields (hoperands _ (.tail _ (.head _))) hb
    exact ⟨_, ha.binary (hb.binary (.one rfl) rfl) rfl⟩
  | member _ hmember =>
    obtain ⟨-, rfl⟩ := hp
    obtain ⟨x, -, -, -, hv, -⟩ := Scope.memberOf_ok hmember
    obtain ⟨flag, hget, -⟩ := (hsc.lookup x _ hv).get
    exact ⟨flag, .one hget⟩

/-- The value is a bit if the form of the expression says so. -/
theorem ValueRule.yields (he : sc.arena.expr? id = some e) (hkeeps : sc.keepsBits id = true)
    (h : ValueRule sc id e p) (hp : p.Makes sc sub code) : sc.Yields id code := by
  -- What is asked of the flag is what the form of the expression says.
  suffices ∃ flag, sc.bits.Leaves code flag ∧ (sc.bitForm id = true → flag = true) from this
  simp only [Scope.bitForm, Scope.denoted?, he, Bool.and_eq_true]
  simp only [Scope.keepsBits, he] at hkeeps
  cases h with
  | literal hi =>
    obtain ⟨-, rfl⟩ := hp
    cases e with
    | bool value =>
      cases hi
      refine ⟨_, .one rfl, fun _ => ?_⟩
      cases value <;> rfl
    | int | float | char =>
      cases hi
      exact ⟨_, .one rfl, fun h => by simp at h⟩
    | str | array | struct =>
      obtain ⟨address, -, rfl⟩ := Option.map_eq_some_iff.mp hi
      exact ⟨_, .one rfl, fun h => by simp at h⟩
    | _ => cases hi
  | named hv =>
    obtain ⟨-, rfl⟩ := hp
    obtain ⟨flag, hget, hbit⟩ := (hsc.lookup _ _ hv).get
    exact ⟨flag, .one hget, fun h => hbit (by simpa [hv, Except.toOption] using h.2)⟩
  | flattened hv =>
    obtain ⟨-, rfl⟩ := hp
    obtain ⟨flag, hget, hbit⟩ := (hsc.flattened _ _ _ hv).1.get
    exact ⟨flag, .one hget, fun h => hbit (by simpa [hv] using h.2)⟩
  | @load e q s offset hplace hmemory =>
    obtain ⟨-, a, ha, rfl⟩ := hp
    have hoperands : ∀ c ∈ q.operands, ∀ code, sub c = .ok code → sc.Yields c code := hoperands
    obtain ⟨_, ha⟩ := hplace.yields hsc hoperands ha
    refine ⟨_, ha.unary rfl, fun h => ?_⟩
    cases hplace with
    | @member _ base name _ _ _ he' =>
      rcases he' with rfl | rfl
      · simp [hmemory base name rfl] at h
      · simp at h
    | _ => simp at h
  | @logical op left right hlogical =>
    obtain ⟨a, b, ha, hb, rfl⟩ := hp
    obtain ⟨_, ha, -⟩ := truthWith_yields (hoperands left (.head _)) ha
    obtain ⟨flag, hb, hbit⟩ := truthWith_yields (hoperands right (.tail _ (.head _))) hb
    rw [hbit (by simpa [hlogical] using hkeeps)] at hb
    refine ⟨true, ?_, fun _ => rfl⟩
    unfold chooseCode
    split
    · exact ha.choose hb (.one rfl)
    · exact ha.choose (.one rfl) hb
  | @binary op left right _ _ hlogical _ _ hinteger =>
    obtain ⟨-, a, b, ha, hb, rfl⟩ := hp
    obtain ⟨_, ha, -⟩ := asLaneWith_yields (hoperands left (.head _)) ha
    obtain ⟨_, hb, -⟩ := asLaneWith_yields (hoperands right (.tail _ (.head _))) hb
    exact ⟨_, ha.binary hb (Instr.binary_flags _ hlogical hinteger),
      fun h => by simpa [hlogical] using h.2⟩
  | negative =>
    obtain ⟨-, rfl⟩ := hp
    obtain ⟨flag, hflag, -⟩ := constant_leaves_flag sc.bits _ _
    exact ⟨flag, hflag, fun h => by simp at h⟩
  | negateFloat =>
    obtain ⟨-, a, ha, rfl⟩ := hp
    obtain ⟨_, ha, -⟩ := hoperands _ (.head _) a ha
    exact ⟨_, ha.unary rfl, fun h => by simp at h⟩
  | negateInt =>
    obtain ⟨-, _, b, ⟨-, rfl⟩, hb, rfl⟩ := hp
    obtain ⟨_, hb, -⟩ := asLaneWith_yields (hoperands _ (.head _)) hb
    exact ⟨_, BitContext.Leaves.binary (.one rfl) hb rfl, fun h => by simp at h⟩
  | not =>
    obtain ⟨-, a, ha, rfl⟩ := hp
    obtain ⟨_, ha⟩ := conditionWith_yields (hoperands _ (.head _)) ha
    exact ⟨_, ha.unary rfl, fun _ => rfl⟩
  | bitNot =>
    obtain ⟨-, a, _, ha, ⟨-, rfl⟩, rfl⟩ := hp
    obtain ⟨_, ha, -⟩ := asLaneWith_yields (hoperands _ (.head _)) ha
    exact ⟨_, ha.binary (.one rfl) rfl, fun h => by simp at h⟩

end Values

/-! ## Effects -/

section Effects

variable {sc : Scope} {sub : ExprId → Compiled Code} {code : Code}

/-- Arguments one above the other, each of which is a bit where one is wanted. -/
theorem arguments_flags {args : List (ExprId × Lane)} {after : List Instr}
    (hsub : ∀ a ∈ args, ∀ code, sub a.1 = .ok code → sc.Yields a.1 code)
    (hbits : ∀ a ∈ args, a.2 = .bool → sc.givesBit a.1 = true)
    (h : Performs sc sub (args.map fun a => .operand a.1 (.inLane a.2)) after code) :
    ∃ given, List.Forall₂ (fun want flag => want = true → flag = true)
        (args.map fun a => a.2 == .bool) given ∧
      ∀ flags, sc.bits.check code flags =
        sc.bits.check (.ofList after) (given.reverse ++ flags) := by
  induction args generalizing code with
  | nil =>
    subst h
    exact ⟨[], .nil, fun _ => rfl⟩
  | cons a rest ih =>
    obtain ⟨arg, lane⟩ := a
    obtain ⟨hfirstSub, hrestSub⟩ := List.forall_mem_cons.mp hsub
    obtain ⟨hfirstBit, hrestBits⟩ := List.forall_mem_cons.mp hbits
    obtain ⟨first, others, hfirst, hothers, rfl⟩ := h
    obtain ⟨flag, hflag, hbit⟩ := asLaneWith_yields hfirstSub hfirst
    obtain ⟨given, hgiven, hcheck⟩ := ih hrestSub hrestBits hothers
    -- The first argument is the lowest, so the flags are given in the order of the arguments.
    refine ⟨flag :: given, .cons (fun hwant => ?_) hgiven, fun flags => ?_⟩
    · have hbool : lane = .bool := by simpa using hwant
      exact hbit hbool (hfirstBit hbool)
    · rw [BitContext.check_append, hflag flags, Option.bind_some, hcheck]
      simp

/-- Operands can be taken off if each is a bit where one is wanted. -/
theorem BitContext.pop_of_forall₂ {wants given : List Bool}
    (h : List.Forall₂ (fun want flag => want = true → flag = true) wants given)
    (flags : List Bool) : pop wants (given ++ flags) = some flags := by
  induction h with
  | nil => rfl
  | @cons want flag wants given hbit _ ih =>
    have hwant : (!want || flag) = true := by
      cases want with
      | false => rfl
      | true => simp [hbit rfl]
    simp [pop, hwant, ih]

/-- The value for a variable: a bit if the variable is a boolean and asks for one. -/
theorem asLaneWith_variable {value : ExprId} {v : Variable}
    (hvalue : ∀ code, sub value = .ok code → sc.Yields value code)
    (hbit : v.isBit = true → sc.givesBit value = true)
    (h : asLaneWith sc sub value v.ty.lane = .ok code) :
    ∃ flag, sc.bits.Leaves code flag ∧ (v.isBit = true → flag = true) := by
  obtain ⟨flag, hflag, hgives⟩ := asLaneWith_yields hvalue h
  exact ⟨flag, hflag, fun hv => hgives (Variable.isBit_lane hv) (hbit hv)⟩

variable (hsc : sc.AllKept) {id : ExprId} {e : Expr} {keep : Bool} {values : List Plan}
variable {after : List Instr}

include hsc

/-- An expression with an effect leaves its value if that is wanted, and nothing else. -/
theorem EffectRule.flags (he : sc.arena.expr? id = some e) (hkeeps : sc.keepsBits id = true)
    (hvoid : keep = true → sc.NoVoidCall id) (h : EffectRule sc keep e values after)
    (hoperands : ∀ p ∈ values, ∀ c ∈ p.operands, ∀ code, sub c = .ok code → sc.Yields c code)
    (hvalues : Performs sc sub values after code) :
    ∃ flag, (keep = true → sc.bitForm id = true → flag = true) ∧ ∀ flags,
      sc.bits.check code flags = some (if keep then flag :: flags else flags) := by
  simp only [Scope.bitForm, Scope.denoted?, he, Bool.and_eq_true]
  simp only [Scope.keepsBits, Scope.denoted?, he] at hkeeps
  cases h with
  | @update op operand name v set hoperand hv hset =>
    subst hvalues
    obtain ⟨flag, hget, -⟩ := (hsc.lookup name v hv).get
    have hset := (hsc.lookup name v hv).set set hset
    -- Counting up or down does not keep to bits, so the variable must not be assumed to hold one.
    have hbit : v.isBit = false := by simpa [hoperand, hv, Except.toOption] using hkeeps
    have hget : ∀ flags, sc.bits.step (.get v) flags = some (flag :: flags) := by
      simp [BitContext.step, hget, BitContext.pop]
    have hset : ∀ x flags, sc.bits.step set (x :: flags) = some flags := by
      simp [BitContext.step, hset, hbit, BitContext.pop]
    refine ⟨flag, fun _ h => by simp at h, fun flags => ?_⟩
    cases v.ty.lane.isFloat <;> cases op <;> cases keep <;>
      simp [countBy, Code.ofList, BitContext.check, hget, hset]
  | @call callee args s hs hlength =>
    simp only [hs, Except.toOption, Option.any_some, Bool.and_eq_true, List.all_eq_true] at hkeeps
    obtain ⟨hparams, hbits⟩ := hkeeps
    obtain ⟨given, hgiven, hcheck⟩ := arguments_flags
      (fun a ha => hoperands _ (List.mem_map_of_mem ha) a.1 (.head _))
      (fun a ha hbool => by simpa [hbool] using hbits a ha) hvalues
    -- There are as many arguments as parameters, so pairing them up loses none.
    have hwants : (args.zip s.paramLanes).map (fun a => a.2 == .bool) =
        s.paramLanes.map (· == .bool) := by
      rw [show (fun a : ExprId × Lane => a.2 == .bool) = (· == .bool) ∘ Prod.snd from rfl,
        ← List.map_map, List.map_snd_zip (by omega)]
    rw [hwants] at hgiven
    have htype : sc.bits.type? (.call callee) = some ((s.paramLanes.map (· == .bool)).reverse,
        (s.resultLane.valType?.map fun _ => s.resultLane == .bool).toList) := by
      simp only [BitContext.type?, Scope.bits, hs, Except.toOption, Option.bind_some]
      rw [if_pos (by simpa [List.all_eq_true] using hparams)]
    have hstep : ∀ flags, sc.bits.step (.call callee) (given.reverse ++ flags) =
        some ((s.resultLane.valType?.map fun _ => s.resultLane == .bool).toList ++ flags) := by
      intro flags
      rw [BitContext.step, htype, Option.bind_some,
        BitContext.pop_of_forall₂ (List.forall₂_reverse_iff.mpr hgiven)]
      rfl
    refine ⟨s.resultLane == .bool, fun _ h => by simpa [hs, Except.toOption] using h.2,
      fun flags => ?_⟩
    rw [hcheck]
    simp only [Code.ofList, BitContext.check, hstep, Option.bind_some]
    -- A call whose value is not wanted may have none.
    cases keep with
    | true =>
      have hvoid := Ty.lane_ne_void (hvoid rfl id callee args s .refl he hs)
      cases hlane : s.resultLane <;> first | rfl | exact absurd hlane hvoid
    | false => cases s.resultLane <;> rfl
  | @assignVariable target value name v set htarget hv hset =>
    obtain ⟨inner, _, hinner, rfl, rfl⟩ := hvalues
    simp only [htarget, hv, Except.toOption, Option.any_some] at hkeeps ⊢
    obtain ⟨flag, hflag, hwant⟩ := asLaneWith_variable (hoperands _ (.head _) value (.head _))
      (fun h => by simpa [h] using hkeeps) hinner
    obtain ⟨⟨kept, hget, hkept⟩, hset', htee⟩ := hsc.lookup name v hv
    have hset := hset' set hset
    cases keep with
    | false => exact ⟨true, fun _ _ => rfl, hflag.stored hwant hset⟩
    | true =>
      -- A local keeps its value on the stack by `tee`, a global is read once more.
      cases hlocal : v.isLocal with
      | true => exact ⟨v.isBit, fun _ h => h.2, hflag.stored hwant (htee hlocal)⟩
      | false =>
        exact ⟨kept, fun _ h => hkept h.2, fun flags =>
          (hflag.storedThen hwant hset _ flags).trans (BitContext.Leaves.one hget flags)⟩
  | @assignFlattened target value base name v p s offset htarget hv hplace =>
    obtain ⟨address, _, haddress, ⟨inner, _, hinner, rfl, rfl⟩, rfl⟩ := hvalues
    simp only [htarget, hv, Option.any_some] at hkeeps ⊢
    obtain ⟨_, haddress⟩ := hplace.yields hsc (hoperands p (.head _)) haddress
    obtain ⟨flag, hflag, hwant⟩ := asLaneWith_variable
      (hoperands _ (.tail _ (.head _)) value (.head _)) (fun h => by simpa [h] using hkeeps) hinner
    obtain ⟨⟨⟨kept, hget, hkept⟩, -, htee⟩, hlocal⟩ := hsc.flattened base name v hv
    refine ⟨kept, fun _ h => hkept h.2, fun flags => ?_⟩
    rw [BitContext.check_append, haddress flags, Option.bind_some,
      hflag.storedThen hwant (htee hlocal)]
    cases keep with
    | false => rfl
    | true => exact BitContext.Leaves.one hget flags
  | @assignPlace target value e p s offset htarget hkeep hplace =>
    subst hkeep
    obtain ⟨address, _, haddress, ⟨inner, _, hinner, rfl, rfl⟩, rfl⟩ := hvalues
    obtain ⟨_, haddress⟩ := hplace.yields hsc (hoperands p (.head _)) haddress
    obtain ⟨_, hinner, -⟩ := asLaneWith_yields (hoperands _ (.tail _ (.head _)) _ (.head _)) hinner
    refine ⟨true, fun _ _ => rfl, fun flags => ?_⟩
    simp [BitContext.check_append, haddress flags, hinner _, Code.ofList, BitContext.check]

end Effects

/-! ## Expressions -/

section Expressions

variable {sc : Scope} (hsc : sc.AllKept) {id : ExprId} {code : Code}

theorem Scope.Tidy.within {inner : ExprId} (h : sc.Tidy id) (hin : sc.arena.Within inner id) :
    sc.Tidy inner :=
  ⟨fun i hi => h.keeps i (hi.trans hin), fun i callee args s hi => h.values i callee args s
    (hi.trans hin)⟩

theorem Scope.TidyEffect.child {e : Expr} {c : ExprId} (h : sc.TidyEffect id)
    (he : sc.arena.expr? id = some e) (hc : c ∈ e.children) : sc.Tidy c :=
  ⟨fun inner hin => h.keeps inner (.operand he hc hin), h.values e he c hc⟩

/-- What is no call has a value. -/
theorem Scope.TidyEffect.tidy {e : Expr} (h : sc.TidyEffect id) (he : sc.arena.expr? id = some e)
    (hcall : ∀ callee args, e ≠ .call callee args) : sc.Tidy id := by
  refine ⟨h.keeps, fun inner callee args s hin hinner hs => ?_⟩
  cases hin with
  | refl => exact absurd (Option.some.inj (he.symm.trans hinner)) (hcall callee args)
  | operand he' hchild hin => exact h.values _ he' _ hchild inner callee args s hin hinner hs

include hsc

theorem lowerStep_yields {sub : ExprId → Compiled Code} (htidy : sc.Tidy id)
    (hsub : ∀ inner, sc.arena.Within inner id → ∀ code, sub inner = .ok code →
      sc.Yields inner code) (h : lowerStep sc id sub = .ok code) : sc.Yields id code := by
  have hkeeps := htidy.keeps id .refl
  obtain ⟨e, he, ⟨p, hrule, hp⟩ | ⟨values, after, hrule, hvalues⟩⟩ := lowerStep_ok h
  · exact hrule.yields hsc
      (fun c hc => hsub c (.operand he (hrule.operands_mem hc) .refl)) he hkeeps
      hp
  · obtain ⟨flag, hbit, hcheck⟩ := hrule.flags hsc he hkeeps (fun _ => htidy.values)
      (fun p hp c hc => by
        obtain ⟨child, hchild, hc⟩ := hrule.operands_within hp hc
        exact hsub c (.operand he hchild hc)) hvalues
    exact ⟨flag, hcheck, hbit rfl⟩

/-- The code of an expression that keeps the discipline leaves one value, a bit if its form says
so. -/
theorem lower_yields (htidy : sc.Tidy id) (h : lower sc id = .ok code) : sc.Yields id code := by
  induction id using Nat.strongRecOn generalizing code with
  | ind id ih =>
    rw [lower, descend_eq, ← lower] at h
    refine lowerStep_yields hsc htidy (fun inner hin own hown => ?_) h
    split at hown
    · next hlt => exact ih inner hlt (htidy.within hin) hown
    · cases hown

/-- The code of an expression for its effect is accepted too. Only at its root may a function
without a result be called. -/
theorem discard_flags (htidy : sc.TidyEffect id) (h : Lower.discard sc id = .ok code) :
    ∃ after, sc.bits.check code [] = some after := by
  obtain ⟨e, he, ⟨values, after, hrule, hvalues⟩ | ⟨heffect, lane, own, -, hown, rfl⟩⟩ :=
    discard_ok h
  · obtain ⟨flag, -, hcheck⟩ := hrule.flags hsc he (htidy.keeps id .refl) (fun h => by cases h)
      (fun p hp c hc code => by
        obtain ⟨child, hchild, hc⟩ := hrule.operands_within hp hc
        exact lower_yields hsc ((htidy.child he hchild).within hc)) hvalues
    exact ⟨_, hcheck []⟩
  · obtain ⟨flag, hflag, -⟩ :=
      lower_yields hsc (htidy.tidy he (by rintro _ _ rfl; cases heffect)) hown
    unfold dropValue
    split
    · exact ⟨_, hflag []⟩
    · exact ⟨[], by rw [BitContext.check_append, hflag]; rfl⟩

end Expressions

end WasmBackend
