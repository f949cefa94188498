import WasmBackend.Proofs.Integers.Computes
import WasmBackend.Proofs.Lanes

/-!
# Lowering integer expressions is correct

The rules of lowering, one lemma each, on operands whose code computes what they denote; then the
recursion over the nodes of a module. Besides the operators themselves three things need an
argument: a *constant* is folded, so its code is not the code of its parts; a *boolean* is used as
it is, which is right because it is zero or one; and *short-circuiting* is a choice between two
pieces of code. Control flow is left out.
-/

namespace WasmBackend

open Compiled Lower TwosComplement

/-! ## Lanes -/

theorem IntExpr.lane_isFloat (t : IntExpr) : t.lane.isFloat = false := by
  rcases t.lane_eq_int_or_bool with h | h <;> rw [h] <;> rfl

namespace Scope.Denotes

variable {sc : Scope} {id : ExprId} {t : IntExpr}

/-- The lane of an integer expression. -/
theorem laneOf_eq (harena : sc.arena.Descending) (h : sc.Denotes id t) :
    sc.laneOf id = .ok t.lane := by
  induction h with
  | int he | bool he | char he => exact laneOf_literal he rfl
  | ident hv =>
    obtain ⟨name, he, hv, hty, -⟩ := hv
    rw [laneOf_ident he, hv, ok_bind, hty]
    rfl
  | @binary id left right op a b he _ _ iha ihb =>
    -- Neither operand is a float, so nothing is promoted to one.
    have hpromote : promote a.lane b.lane = .int := by
      simp [promote, IntExpr.lane_isFloat]
    rw [Scope.laneOf_eq harena he]
    simp only [laneOfStep, expr_eq_ok.mpr he, ok_bind, iha, ihb, hpromote, IntExpr.lane]
    split <;> rfl
  | @neg id operand a he _ iha =>
    rw [Scope.laneOf_eq harena he]
    simp only [laneOfStep, expr_eq_ok.mpr he, ok_bind, iha, IntExpr.lane_isFloat]
    rfl
  | not he _ _ | bitNot he _ _ =>
    rw [Scope.laneOf_eq harena he]
    simp only [laneOfStep, expr_eq_ok.mpr he, ok_bind]
    rfl
  | update he hv =>
    obtain ⟨name, hname, hv, hty, -⟩ := hv
    rw [Scope.laneOf_eq harena he]
    simp only [laneOfStep, expr_eq_ok.mpr he, expr_eq_ok.mpr hname, ok_bind, hv, hty]
    rfl
  | assign he _ _ iha =>
    rw [Scope.laneOf_eq harena he]
    simp only [laneOfStep, expr_eq_ok.mpr he, ok_bind, iha, IntExpr.lane]

end Scope.Denotes

/-! ## Constants -/

theorem Instr.wrapped_eq (n : Int64) : wrapped n = wrap n.toInt := Int64.toInt_toInt32 n

theorem wrap_wrap (n : Int) : wrap (wrap n) = wrap n := Int.bmod_bmod

/-- Cutting a number to 64 bits first makes no difference. -/
theorem wrap_bmod (n : Int) : wrap (n.bmod 0x10000000000000000) = wrap n :=
  Int.bmod_bmod_of_dvd (by decide)

theorem wrap_neg (n : Int64) : wrap (-n).toInt = wrap (-wrap n.toInt) := by
  rw [Int64.toInt_neg]
  exact (wrap_bmod _).trans Int.bmod_neg_bmod.symm

/-- A character fits. -/
theorem wrap_toNat (c : Char) : wrap c.toNat = c.toNat := by
  have hlt : c.toNat < 0x110000 := by
    have hvalid := c.valid
    unfold UInt32.isValidChar Nat.isValidChar at hvalid
    show c.val.toNat < 0x110000
    omega
  apply Int.bmod_eq_of_le <;> omega

theorem wrap_char (c : Char) : wrap (Int64.ofInt c.toNat).toInt = c.toNat := by
  rw [Int64.toInt_ofInt]
  exact (wrap_bmod _).trans (wrap_toNat c)

/-- The constant that an integer expression is, is an integer, and what the expression means. -/
theorem Scope.Denotes.eval_constant {sc : Scope} {id : ExprId} {t : IntExpr} {c : Constant}
    (h : sc.Denotes id t) (hc : sc.constant? id = some c) :
    ∃ n, c = .int n ∧ ∀ s, t.eval s = some (wrap n.toInt, s) := by
  unfold Scope.constant? Constant.ofExpr? at hc
  cases h with
  | int he =>
    simp only [he, Option.some.injEq] at hc
    exact ⟨_, hc.symm, fun s => rfl⟩
  | @bool _ b he =>
    simp only [he, Option.some.injEq] at hc
    exact ⟨_, hc.symm, fun s => by cases b <;> rfl⟩
  | char he =>
    simp only [he, Option.some.injEq] at hc
    exact ⟨_, hc.symm, fun s => by rw [wrap_char]; rfl⟩
  | neg he ha =>
    simp only [he] at hc
    -- Of all operands only a number is folded together with its sign.
    cases ha with
    | int he' =>
      simp only [he', Option.some.injEq] at hc
      exact ⟨_, hc.symm, fun s => by rw [wrap_neg]; rfl⟩
    | ident hv =>
      obtain ⟨name, he', -⟩ := hv
      simp [he'] at hc
    | bool he' | char he' | binary he' _ _ | neg he' _ | not he' _ | bitNot he' _ | update he' _
    | assign he' _ _ => simp [he'] at hc
  | ident hv =>
    obtain ⟨name, he, -⟩ := hv
    simp [he] at hc
  | binary he _ _ | not he _ | bitNot he _ | update he _ | assign he _ _ => simp [he] at hc

/-- So it may be folded. -/
theorem constant_computes {n : Int64} {m : Meaning} (h : ∀ s, m s = some (wrap n.toInt, s)) :
    (Code.one (.constant (.int n) .int)).Computes m := by
  refine (Code.computes_intConst (Instr.wrapped n)).congr fun s => ?_
  rw [Instr.wrapped_eq, wrap_wrap, h]

/-! ## Operands -/

/-- The lowering succeeds, and the code computes this. -/
def Compiled.Computes (x : Compiled Code) (m : Meaning) : Prop :=
  ∃ code, x = .ok code ∧ code.Computes m

/-- The lowering succeeds, and the code does this without leaving a value. -/
def Compiled.Performs (x : Compiled Code) (m : Meaning) : Prop :=
  ∃ code, x = .ok code ∧ code.Performs m

section Operands

variable {sc : Scope} (harena : sc.arena.Descending) {sub : ExprId → Compiled Code}
variable {id : ExprId} {t : IntExpr} (h : sc.Denotes id t) (hsub : (sub id).Computes t.eval)

include harena h hsub

/-- As an integer. -/
theorem asLaneWith_computes : (asLaneWith sc sub id .int).Computes t.eval := by
  unfold asLaneWith
  rw [if_neg (by decide)]
  cases hc : sc.constant? id with
  | some c =>
    obtain ⟨n, rfl, heval⟩ := h.eval_constant hc
    exact ⟨_, rfl, constant_computes heval⟩
  | none =>
    obtain ⟨code, hcode, hcomputes⟩ := hsub
    have hconvert : Instr.convert? t.lane .int = none := by
      simp [Instr.convert?, t.lane_isFloat]
    refine ⟨code, ?_, hcomputes⟩
    simp only [h.laneOf_eq harena, hcode, ok_bind, hconvert]
    rfl

/-- As a condition. -/
theorem conditionWith_computes : (conditionWith sc sub id).Computes t.eval := by
  obtain ⟨code, hcode, hcomputes⟩ := hsub
  refine ⟨code, ?_, hcomputes⟩
  simp only [conditionWith, h.laneOf_eq harena, hcode, ok_bind, t.lane_isFloat]
  rfl

/-- As zero or one. -/
theorem truthWith_computes : (truthWith sc sub id).Computes fun s =>
    (t.eval s).bind fun p => some (flag (p.1 != 0), p.2) := by
  obtain ⟨code, hcode, hcomputes⟩ := conditionWith_computes harena h hsub
  simp only [truthWith, h.laneOf_eq harena, hcode, ok_bind]
  rcases t.lane_eq_int_or_bool with hlane | hlane
  · rw [if_pos hlane]
    exact ⟨_, rfl, hcomputes.append (Code.continues_intConst 0 (IntOp.apply_intOp .notEq rfl))⟩
  · rw [if_neg (by rw [hlane]; decide)]
    refine ⟨code, rfl, hcomputes.congr fun s => ?_⟩
    -- A boolean is its own truth value.
    cases heval : t.eval s with
    | none => rfl
    | some p =>
      obtain ⟨v, s'⟩ := p
      rcases IntExpr.eval_bool hlane heval with rfl | rfl <;> rfl

end Operands

/-! ## Operators -/

section Operators

variable {sc : Scope} (harena : sc.arena.Descending) {sub : ExprId → Compiled Code}

section Binary

variable {left right : ExprId} {a b : IntExpr} (ha : sc.Denotes left a) (hb : sc.Denotes right b)
variable (hleft : (sub left).Computes a.eval) (hright : (sub right).Computes b.eval)

include harena ha hb hleft hright

/-- The right operand is the arm that is taken if the left one has not decided. -/
theorem logicalWith_computes {op : BinaryOp} (hop : op.isLogical = true) :
    (logicalWith sc sub op left right).Computes (IntExpr.binary op a b).eval := by
  obtain ⟨first, hfirst, hfirst'⟩ := truthWith_computes harena ha hleft
  obtain ⟨second, hsecond, hsecond'⟩ := truthWith_computes harena hb hright
  simp only [logicalWith, hfirst, hsecond, ok_bind]
  cases op with
  | and =>
    refine ⟨_, rfl, (hfirst'.append
      (hsecond'.continues_ifElse (Code.computes_intConst 0))).congr fun s => ?_⟩
    simp only [IntExpr.eval, Option.bind_eq_bind]
    -- If the left operand fails, neither side comes to the right one.
    cases a.eval s with
    | none => rfl
    | some p =>
      by_cases hx : p.1 = 0
      · simp [hx, BinaryOp.decided?, flag_bne_zero, wrap]
      · simp [hx, BinaryOp.decided?, flag_bne_zero, BinaryOp.compute]
  | or =>
    refine ⟨_, rfl, (hfirst'.append
      ((Code.computes_intConst 1).continues_ifElse hsecond')).congr fun s => ?_⟩
    simp only [IntExpr.eval, Option.bind_eq_bind]
    cases a.eval s with
    | none => rfl
    | some p =>
      by_cases hx : p.1 = 0
      · simp [hx, BinaryOp.decided?, flag_bne_zero, BinaryOp.compute]
      · simp [hx, BinaryOp.decided?, flag_bne_zero, wrap]
  | _ => cases hop

theorem binaryWith_computes (op : BinaryOp) :
    (binaryWith sc sub op left right).Computes (IntExpr.binary op a b).eval := by
  unfold binaryWith
  cases hop : op.isLogical with
  | true =>
    rw [if_pos rfl]
    exact logicalWith_computes harena ha hb hleft hright hop
  | false =>
    obtain ⟨first, hfirst, hfirst'⟩ := asLaneWith_computes harena ha hleft
    obtain ⟨second, hsecond, hsecond'⟩ := asLaneWith_computes harena hb hright
    have hpromote : Scope.promote a.lane b.lane = .int := by
      simp [Scope.promote, IntExpr.lane_isFloat]
    simp only [ha.laneOf_eq harena, hb.laneOf_eq harena, ok_bind, IntExpr.lane_isFloat,
      hpromote, hfirst, hsecond, Bool.or_self, Bool.false_and, Bool.false_eq_true, if_false]
    refine ⟨_, rfl, ?_⟩
    rw [Code.append_assoc]
    refine (hfirst'.append
      (hsecond'.continues_intBinary (IntOp.apply_intOp op hop))).congr fun s => ?_
    simp only [IntExpr.eval, Option.bind_eq_bind]
    cases a.eval s with
    | none => rfl
    | some p =>
      -- No value of the left operand decides about the right one.
      have hdecided : op.decided? p.1 = none := by
        cases op <;> first | rfl | cases hop
      simp only [Option.bind_some, hdecided]
      rfl

end Binary

section Unary

variable {id operand : ExprId} {a : IntExpr} (ha : sc.Denotes operand a)
variable (hsub : (sub operand).Computes a.eval)

include harena ha hsub

/-- Negation is a subtraction from zero, unless it is folded. -/
theorem negateWith_computes (he : sc.arena.expr? id = some (.unary .neg operand)) :
    (negateWith sc sub id operand).Computes (IntExpr.neg a).eval := by
  unfold negateWith
  cases hc : sc.constant? id with
  | some c =>
    obtain ⟨n, rfl, heval⟩ := (Scope.Denotes.neg he ha).eval_constant hc
    exact ⟨_, rfl, constant_computes heval⟩
  | none =>
    obtain ⟨code, hcode, hcode'⟩ := asLaneWith_computes harena ha hsub
    simp only [ha.laneOf_eq harena, hcode, ok_bind, IntExpr.lane_isFloat]
    refine ⟨_, rfl, ?_⟩
    rw [Code.append_assoc]
    refine ((Code.computes_intConst 0).append
      (hcode'.continues_intBinary (IntOp.apply_intOp .sub rfl))).congr fun s => ?_
    simp [IntExpr.eval, BinaryOp.compute, wrap]

/-- The other prefix operators. -/
theorem unaryWith_not_computes : (unaryWith sc sub id .not operand).Computes
    (IntExpr.not a).eval := by
  obtain ⟨code, hcode, hcode'⟩ := conditionWith_computes harena ha hsub
  simp only [unaryWith, hcode, ok_bind]
  exact ⟨_, rfl, hcode'.append Code.continues_intEqz⟩

theorem unaryWith_bitNot_computes : (unaryWith sc sub id .bitNot operand).Computes
    (IntExpr.bitNot a).eval := by
  obtain ⟨code, hcode, hcode'⟩ := asLaneWith_computes harena ha hsub
  simp only [unaryWith, hcode, ok_bind]
  exact ⟨_, rfl, hcode'.append Code.continues_flip⟩

end Unary

section Variables

variable {target value : ExprId} {v : Variable} {r : Register} (hv : sc.Names target v r)

include hv

omit harena in
theorem update_performs (op : PostfixOp) :
    (update sc op target false).Performs (IntExpr.update op r).eval := by
  obtain ⟨name, he, hv, hty, hr⟩ := hv
  obtain ⟨set, hset, hexec⟩ := Code.exec_set hr
  have hlane : v.ty.lane.isFloat = false := by rw [hty]; rfl
  simp only [update, Scope.expr_eq_ok.mpr he, ok_bind, hv, hset, hlane]
  cases op with
  | increment =>
    exact ⟨_, rfl, Code.performs_count hr hexec (IntOp.apply_intOp .add rfl) fun x => rfl⟩
  | decrement =>
    exact ⟨_, rfl, Code.performs_count hr hexec (IntOp.apply_intOp .sub rfl) fun x => rfl⟩

/-- Counting for the value is counting for the effect, above the old value. -/
theorem update_computes (op : PostfixOp) :
    (update sc op target true).Computes (IntExpr.update op r).eval := by
  obtain ⟨code, hcode, hperforms⟩ := update_performs hv op
  obtain ⟨name, he, hv, hty, hr⟩ := hv
  refine ⟨.one (.get v) ++ code, ?_, hperforms.computes_get_append hr⟩
  simp only [update, Scope.expr_eq_ok.mpr he, ok_bind, hv, bind_ok,
    pure_ok] at hcode ⊢
  obtain ⟨set, hset, rfl⟩ := hcode
  exact ⟨set, hset, rfl⟩

variable {a : IntExpr} (ha : sc.Denotes value a) (hsub : (sub value).Computes a.eval)

include harena ha hsub

theorem assignWith_computes :
    (assignWith sc sub target value true).Computes (IntExpr.assign r a).eval := by
  obtain ⟨name, he, hv, hty, hr⟩ := hv
  obtain ⟨set, hset, hexec⟩ := Code.exec_set hr
  obtain ⟨code, hcode, hcode'⟩ := asLaneWith_computes harena ha hsub
  have hlane : v.ty.lane = .int := by rw [hty]; rfl
  simp only [assignWith, assignVariableWith, Scope.expr_eq_ok.mpr he, ok_bind, hv, hset,
    hlane, hcode, if_true]
  split
  · next hlocal => exact ⟨_, rfl, hcode'.append (Code.continues_tee hr hlocal)⟩
  · exact ⟨_, rfl, hcode'.append (Code.continues_set_get hr hexec)⟩

theorem assignWith_performs :
    (assignWith sc sub target value false).Performs (IntExpr.assign r a).eval := by
  obtain ⟨name, he, hv, hty, hr⟩ := hv
  obtain ⟨set, hset, hexec⟩ := Code.exec_set hr
  obtain ⟨code, hcode, hcode'⟩ := asLaneWith_computes harena ha hsub
  have hlane : v.ty.lane = .int := by rw [hty]; rfl
  simp only [assignWith, assignVariableWith, Scope.expr_eq_ok.mpr he, ok_bind, hv, hset,
    hlane, hcode, Bool.false_eq_true, if_false]
  exact ⟨_, rfl, hcode'.performs_set hexec⟩

end Variables

end Operators

/-! ## Expressions -/

section Expressions

variable {sc : Scope} (harena : sc.arena.Descending) {id : ExprId} {t : IntExpr}

include harena

/-- One step of lowering, one case for each kind of integer expression. -/
theorem lowerStep_computes {sub : ExprId → Compiled Code} (h : sc.Denotes id t)
    (hsub : ∀ c a, c < id → sc.Denotes c a → (sub c).Computes a.eval) :
    (lowerStep sc id sub).Computes t.eval := by
  cases h with
  | int he =>
    simp only [lowerStep, Scope.expr_eq_ok.mpr he, ok_bind]
    exact ⟨_, rfl, constant_computes fun s => rfl⟩
  | @bool _ b he =>
    simp only [lowerStep, Scope.expr_eq_ok.mpr he, ok_bind]
    refine ⟨_, rfl, (Code.computes_intConst _).congr fun s => ?_⟩
    cases b <;> rfl
  | @char _ c he =>
    simp only [lowerStep, Scope.expr_eq_ok.mpr he, ok_bind]
    exact ⟨_, rfl, (Code.computes_intConst _).congr fun s => by rw [wrap_toNat]; rfl⟩
  | ident hv =>
    obtain ⟨name, he, hv, -, hr⟩ := hv
    simp only [lowerStep, Scope.expr_eq_ok.mpr he, ok_bind, hv]
    exact ⟨_, rfl, Code.computes_get hr⟩
  | @binary _ left right op a b he ha hb =>
    simp only [lowerStep, Scope.expr_eq_ok.mpr he, ok_bind]
    have hlt := harena id _ he
    exact binaryWith_computes harena ha hb (hsub left a (hlt left (by simp)) ha)
      (hsub right b (hlt right (by simp)) hb) op
  | @neg _ operand a he ha =>
    simp only [lowerStep, Scope.expr_eq_ok.mpr he, ok_bind]
    have hlt := harena id _ he operand (by simp)
    exact negateWith_computes harena ha (hsub operand a hlt ha) he
  | @not _ operand a he ha =>
    simp only [lowerStep, Scope.expr_eq_ok.mpr he, ok_bind]
    have hlt := harena id _ he operand (by simp)
    exact unaryWith_not_computes harena ha (hsub operand a hlt ha)
  | @bitNot _ operand a he ha =>
    simp only [lowerStep, Scope.expr_eq_ok.mpr he, ok_bind]
    have hlt := harena id _ he operand (by simp)
    exact unaryWith_bitNot_computes harena ha (hsub operand a hlt ha)
  | @update _ operand op v r he hv =>
    simp only [lowerStep, Scope.expr_eq_ok.mpr he, ok_bind]
    exact update_computes hv op
  | @assign _ target value v r a he hv ha =>
    simp only [lowerStep, Scope.expr_eq_ok.mpr he, ok_bind]
    have hlt := harena id _ he value (by simp)
    exact assignWith_computes harena hv ha (hsub value a hlt ha)

theorem lower_computes (h : sc.Denotes id t) : (lower sc id).Computes t.eval := by
  induction id using Nat.strongRecOn generalizing t with
  | ind id ih =>
    rw [lower, descend_eq, ← lower]
    refine lowerStep_computes harena h fun c a hc ha => ?_
    rw [if_pos hc]
    exact ih c hc ha

theorem discard_performs (h : sc.Denotes id t) : (discard sc id).Performs t.eval := by
  -- Most expressions are computed, and the value is dropped.
  have hdrop : Compiled.Performs
      (do let lane ← sc.laneOf id; return dropValue (← lower sc id) lane) t.eval := by
    obtain ⟨code, hcode, hcode'⟩ := lower_computes harena h
    have hvoid : t.lane ≠ .void := by
      rcases t.lane_eq_int_or_bool with hlane | hlane <;> rw [hlane] <;> decide
    simp only [h.laneOf_eq harena, hcode, ok_bind, dropValue, hvoid, if_false]
    exact ⟨_, rfl, hcode'.drop⟩
  cases h with
  | ident hv =>
    obtain ⟨name, he, -⟩ := hv
    simp only [Lower.discard, Scope.expr_eq_ok.mpr he, ok_bind]
    exact hdrop
  | int he | bool he | char he | binary he _ _ | neg he _ | not he _ | bitNot he _ =>
    simp only [Lower.discard, Scope.expr_eq_ok.mpr he, ok_bind]
    exact hdrop
  | update he hv =>
    simp only [Lower.discard, Scope.expr_eq_ok.mpr he, ok_bind]
    exact update_performs hv _
  | assign he hv ha =>
    simp only [Lower.discard, Scope.expr_eq_ok.mpr he, ok_bind]
    exact assignWith_performs harena hv ha (lower_computes harena ha)

end Expressions

/-- **Integer expressions are lowered correctly.** Lowering succeeds, and a run of the code from any
state ends as the expression means: with its value on top of the stack, or, if the value is not
wanted, with the stack as it was; with the new values in the variables and no other change; or in a
trap, exactly if a division in the expression traps. -/
theorem integer_lowering_correct {sc : Scope} (harena : sc.arena.Descending) {id : ExprId}
    {t : IntExpr} (h : sc.Denotes id t) :
    (∃ code, lower sc id = .ok code ∧ ∀ outside stack s,
      Config.Gives stack (t.eval s.ints) (code.run outside ⟨stack, s⟩)) ∧
    (∃ code, discard sc id = .ok code ∧ ∀ outside stack s,
      Config.Keeps stack (t.eval s.ints) (code.run outside ⟨stack, s⟩)) :=
  ⟨lower_computes harena h, discard_performs harena h⟩

/-- `x = y++ / (y - 1) + (x && -5)` for two locals. -/
def quotientOfCount : Scope where
  info := .empty "m" 16
  arena := { exprs := #[.ident "y", .update .increment 0, .ident "y", .int 1, .binary .sub 2 3,
    .binary .div 1 4, .ident "x", .int 5, .unary .neg 7, .binary .and 6 8, .binary .add 5 9,
    .ident "x", .assign 11 10] }
  frame := some
    { name := "f", result := .void,
      locals := ⟨[("x", ⟨"x", .localVar, .i32⟩), ("y", ⟨"y", .localVar, .i32⟩)]⟩ }

theorem quotientOfCount_descending : quotientOfCount.arena.Descending :=
  Module.descending_of_validate (m := ⟨"m", [], quotientOfCount.arena⟩) rfl

/-- The same as a tree. -/
def quotientOfCountTree : IntExpr :=
  .assign (.localVar "x") (.binary .add
    (.binary .div (.update .increment (.localVar "y"))
      (.binary .sub (.var (.localVar "y")) (.int (1 : Int64).toInt)))
    (.binary .and (.var (.localVar "x")) (.neg (.int (5 : Int64).toInt))))

theorem quotientOfCount_denotes : quotientOfCount.Denotes 12 quotientOfCountTree := by
  have hx : ∀ id, quotientOfCount.arena.expr? id = some (.ident "x") →
      quotientOfCount.Names id ⟨"x", .localVar, .i32⟩ (.localVar "x") :=
    fun id he => ⟨"x", he, rfl, rfl, rfl⟩
  have hy : ∀ id, quotientOfCount.arena.expr? id = some (.ident "y") →
      quotientOfCount.Names id ⟨"y", .localVar, .i32⟩ (.localVar "y") :=
    fun id he => ⟨"y", he, rfl, rfl, rfl⟩
  refine .assign rfl (hx 11 rfl) (.binary rfl (.binary rfl ?_ ?_) (.binary rfl ?_ ?_))
  · exact .update rfl (hy 0 rfl)
  · exact .binary rfl (.ident (hy 2 rfl)) (.int rfl)
  · exact .ident (hx 6 rfl)
  · exact .neg rfl (.int rfl)

/-- Three in `x`, one elsewhere. -/
def threeAndOne : Store Word := fun r => if r = .localVar "x" then 3 else 1

/-- The quotient is taken after the count: one by one is one, and zero by zero traps. -/
theorem quotientOfCount_runs :
    ∃ code, lower quotientOfCount 12 = .ok code ∧ ∀ outside stack,
      (∃ s, code.run outside ⟨stack, threeAndOne⟩ = .ok ⟨2 :: stack, s⟩ ∧
        s (.localVar "x") = 2 ∧ s (.localVar "y") = 2) ∧
      code.run outside ⟨stack, fun _ => 0⟩ = .error .trap := by
  obtain ⟨⟨code, hcode, hrun⟩, -⟩ :=
    integer_lowering_correct quotientOfCount_descending quotientOfCount_denotes
  refine ⟨code, hcode, fun outside stack => ⟨?_, ?_⟩⟩
  · have hvalues : (quotientOfCountTree.eval (Store.ints threeAndOne)).map (fun p =>
        (p.1, p.2 (.localVar "x"), p.2 (.localVar "y"))) = some (2, 2, 2) := by
      decide +kernel
    rcases hrun outside stack threeAndOne with ⟨hnone, -⟩ | ⟨w, s, heval, hok⟩
    · rw [hnone] at hvalues
      cases hvalues
    · rw [heval, Option.map_some, Option.some.injEq, Prod.mk.injEq, Prod.mk.injEq] at hvalues
      obtain ⟨hw, hx, hy⟩ := hvalues
      obtain rfl : w = 2 := BitVec.toInt_inj.mp hw
      exact ⟨s, hok, BitVec.toInt_inj.mp hx, BitVec.toInt_inj.mp hy⟩
  · have hnone : (quotientOfCountTree.eval (Store.ints fun _ => 0)).isNone = true := by
      decide +kernel
    rcases hrun outside stack fun _ => 0 with ⟨-, htrap⟩ | ⟨w, s, heval, -⟩
    · exact htrap
    · rw [heval] at hnone
      cases hnone

end WasmBackend
