import WasmBackend.Lower.Expr
import WasmBackend.Proofs.Integers.Reference

/-!
# Code that computes a meaning

Words stand for numbers, so code can be compared with a meaning: it **computes** the meaning if a
run traps where the meaning traps, and else adds the result to the stack and leaves the new values
in the variables. Each way to put code together has one lemma that gives the meaning of the whole.
Floats, memory and calls are left out.
-/

namespace WasmBackend

open TwosComplement

/-! ## Word arithmetic -/

namespace Word

variable (a b : Word)

theorem wrap_toInt : wrap a.toInt = a.toInt := by
  unfold wrap
  rw [BitVec.toInt_eq_toNat_bmod, Int.bmod_bmod]

theorem bits_toInt : bits a.toInt = a.toNat := by
  unfold bits
  have hmod : a.toInt % ((2 ^ 32 : Nat) : Int) = (a.toNat : Int) := by
    rw [BitVec.toInt_eq_toNat_bmod, Int.bmod_emod]
    exact Int.emod_eq_of_lt (Int.natCast_nonneg _) (Int.ofNat_lt.mpr a.isLt)
  exact (congrArg Int.toNat hmod).trans (Int.toNat_natCast _)

theorem toInt_ofBool (p : Bool) : (ofBool p).toInt = flag p := by
  cases p <;> decide

theorem toInt_eq_zero_iff : a.toInt = 0 ↔ a = 0 := by
  rw [← BitVec.toInt_inj, show (0 : Word).toInt = 0 from rfl]

/-- The only quotient that does not fit. -/
theorem wrap_tdiv_ne_iff : wrap (a.toInt.tdiv b.toInt) ≠ a.toInt.tdiv b.toInt ↔
    a = .intMin 32 ∧ b = -1 := by
  constructor
  · intro hne
    apply Decidable.byContradiction
    intro hnot
    have hfits : a ≠ .intMin 32 ∨ b ≠ -1#32 := Decidable.not_and_iff_not_or_not.mp hnot
    rw [← BitVec.toInt_sdiv_of_ne_or_ne a b hfits] at hne
    exact hne (wrap_toInt _)
  · rintro ⟨rfl, rfl⟩
    decide

theorem toInt_shiftLeft (n : Nat) : (a <<< n).toInt = wrap (a.toInt * Nat.pow 2 n) := by
  unfold wrap
  rw [BitVec.toInt_shiftLeft, BitVec.toInt_eq_toNat_bmod, Int.bmod_mul_bmod, Nat.shiftLeft_eq]
  simp

theorem toInt_not : (~~~a).toInt = -a.toInt - 1 := by
  rw [BitVec.toInt_eq_toNat_cond, BitVec.toInt_eq_toNat_cond, BitVec.toNat_not]
  have hlt := a.isLt
  split <;> split <;> omega

theorem beq_toInt : (a == b) = (a.toInt == b.toInt) := by
  rw [Bool.eq_iff_iff, beq_iff_eq, beq_iff_eq, BitVec.toInt_inj]

theorem slt_toInt : a.slt b = decide (a.toInt < b.toInt) := by
  rw [Bool.eq_iff_iff, BitVec.slt_iff_toInt_lt, decide_eq_true_iff]

theorem sle_toInt : a.sle b = decide (a.toInt ≤ b.toInt) := by
  rw [Bool.eq_iff_iff, BitVec.sle_iff_toInt_le, decide_eq_true_iff]

end Word

/-- Each integer instruction does to words what its operator does to numbers. -/
theorem IntOp.apply_intOp (op : BinaryOp) (hop : op.isLogical = false) (a b : Word) :
    ((Instr.intOp op).apply a b).map BitVec.toInt = op.compute a.toInt b.toInt := by
  have hcompare : ∀ p q : Bool, p = q →
      (some (Word.ofBool p)).map BitVec.toInt = some (flag q) := by
    rintro p _ rfl
    rw [Option.map_some, Word.toInt_ofBool]
  cases op with
  | add => exact congrArg some (BitVec.toInt_add a b)
  | sub => exact congrArg some BitVec.toInt_sub
  | mul => exact congrArg some (BitVec.toInt_mul a b)
  | div =>
    simp only [Instr.intOp, apply, BinaryOp.compute, Word.toInt_eq_zero_iff, Word.wrap_tdiv_ne_iff]
    split
    · rfl
    · next hfits =>
      have hfits : a ≠ .intMin 32 ∨ b ≠ -1#32 :=
        Decidable.not_and_iff_not_or_not.mp fun hboth => hfits (.inr hboth)
      exact congrArg some (BitVec.toInt_sdiv_of_ne_or_ne a b hfits)
  | rem =>
    simp only [Instr.intOp, apply, BinaryOp.compute, Word.toInt_eq_zero_iff]
    split
    · rfl
    · exact congrArg some (BitVec.toInt_srem a b)
  | eq => exact hcompare _ _ (Word.beq_toInt a b)
  | notEq => exact hcompare _ _ (congrArg not (Word.beq_toInt a b))
  | lt => exact hcompare _ _ (Word.slt_toInt a b)
  | ltEq => exact hcompare _ _ (Word.sle_toInt a b)
  | gt => exact hcompare _ _ (Word.slt_toInt b a)
  | gtEq => exact hcompare _ _ (Word.sle_toInt b a)
  | and | or => cases hop
  | bitAnd =>
    simp only [Instr.intOp, apply, BinaryOp.compute, Word.bits_toInt]
    exact congrArg some (BitVec.toInt_and a b)
  | bitOr =>
    simp only [Instr.intOp, apply, BinaryOp.compute, Word.bits_toInt]
    exact congrArg some (BitVec.toInt_or a b)
  | bitXor =>
    simp only [Instr.intOp, apply, BinaryOp.compute, Word.bits_toInt]
    exact congrArg some (BitVec.toInt_xor a b)
  | shl =>
    simp only [Instr.intOp, apply, BinaryOp.compute, Word.bits_toInt]
    exact congrArg some (Word.toInt_shiftLeft a _)
  | shr =>
    simp only [Instr.intOp, apply, BinaryOp.compute, Word.bits_toInt, Option.map_some,
      BitVec.toInt_sshiftRight, Int.shiftRight_eq_div_pow]
    simp

/-! ## Code and meanings -/

/-- The run has trapped if nothing is expected, and else has added the expected number to the stack
and left the expected values in the variables. -/
def Config.Gives (stack : List Word) (expected : Option (Int × Store Int))
    (result : Except Fault Config) : Prop :=
  (expected = none ∧ result = .error .trap) ∨
  ∃ w s, expected = some (w.toInt, Store.ints s) ∧ result = .ok ⟨w :: stack, s⟩

/-- The same for a run that leaves no value. -/
def Config.Keeps (stack : List Word) (expected : Option (Int × Store Int))
    (result : Except Fault Config) : Prop :=
  (expected = none ∧ result = .error .trap) ∨
  ∃ v s, expected = some (v, Store.ints s) ∧ result = .ok ⟨stack, s⟩

namespace Code

open Config

/-- Every run of the code gives what the meaning says. -/
def Computes (code : Code) (m : Meaning) : Prop :=
  ∀ outside stack s, Gives stack (m s.ints) (code.run outside ⟨stack, s⟩)

/-- The same for code that replaces the value on top of the stack. -/
def Continues (code : Code) (k : Int → Meaning) : Prop :=
  ∀ outside w stack s, Gives stack (k w.toInt s.ints) (code.run outside ⟨w :: stack, s⟩)

/-- The same for code that leaves no value. -/
def Performs (code : Code) (m : Meaning) : Prop :=
  ∀ outside stack s, Keeps stack (m s.ints) (code.run outside ⟨stack, s⟩)

variable {a b : Code} {m : Meaning} {k : Int → Meaning} {r : Register}

theorem Computes.congr {m' : Meaning} (h : a.Computes m) (heq : ∀ s, m s = m' s) :
    a.Computes m' := funext heq ▸ h

/-- Without a value, only what happens to the variables counts. -/
theorem Performs.congr {m' : Meaning} (h : a.Performs m)
    (heq : ∀ s, (m s).map Prod.snd = (m' s).map Prod.snd) : a.Performs m' := by
  intro outside stack s
  have hs := heq s.ints
  rcases h outside stack s with ⟨hm, hrun⟩ | ⟨v, s', hm, hrun⟩
  · rw [hm] at hs
    exact .inl ⟨Option.map_eq_none_iff.mp hs.symm, hrun⟩
  · rw [hm, Option.map_some] at hs
    obtain ⟨⟨v', vars⟩, hm', rfl⟩ := Option.map_eq_some_iff.mp hs.symm
    exact .inr ⟨v', s', hm', hrun⟩

theorem computes_intConst (n : Int) : (one (.intConst n)).Computes fun s => some (wrap n, s) := by
  intro outside stack s
  refine .inr ⟨.ofInt 32 n, s, ?_, run_one outside _ _⟩
  rw [BitVec.toInt_ofInt]
  rfl

/-- Code that goes on from a value. -/
theorem Computes.append (ha : a.Computes m) (hb : b.Continues k) :
    (a ++ b).Computes fun s => (m s).bind fun p => k p.1 p.2 := by
  intro outside stack s
  show Gives stack ((m s.ints).bind fun p => k p.1 p.2) _
  rw [run_append]
  rcases ha outside stack s with ⟨hm, hrun⟩ | ⟨w, s', hm, hrun⟩
  · rw [hm, hrun]
    exact .inl ⟨rfl, rfl⟩
  · rw [hm, hrun]
    exact hb outside w stack s'

/-- An operator on the value on top and the value of more code. -/
theorem Computes.continues_intBinary (hb : b.Computes m) {op : IntOp} {f : Int → Int → Option Int}
    (hop : ∀ x y, (op.apply x y).map BitVec.toInt = f x.toInt y.toInt) :
    (b ++ one (.intBinary op)).Continues fun x s =>
      (m s).bind fun p => (f x p.1).bind fun v => some (v, p.2) := by
  intro outside w stack s
  show Gives stack ((m s.ints).bind fun p => (f w.toInt p.1).bind fun v => some (v, p.2)) _
  rw [run_append]
  rcases hb outside (w :: stack) s with ⟨hm, hrun⟩ | ⟨w', s', hm, hrun⟩
  · rw [hm, hrun]
    exact .inl ⟨rfl, rfl⟩
  · rw [hm, hrun]
    simp only [Except.bind, run_one, Instr.exec, Option.bind_some, ← hop w w']
    cases op.apply w w' with
    | none => exact .inl ⟨rfl, rfl⟩
    | some v => exact .inr ⟨v, s', rfl, rfl⟩

/-- An operator whose second operand is a constant. -/
theorem continues_intConst (n : Int) {op : IntOp} {f : Int → Int → Option Int}
    (hop : ∀ x y, (op.apply x y).map BitVec.toInt = f x.toInt y.toInt) :
    (ofList [.intConst n, .intBinary op]).Continues fun x s =>
      (f x (wrap n)).bind fun v => some (v, s) :=
  (computes_intConst n).continues_intBinary hop

theorem continues_intEqz : (one .intEqz).Continues fun x s => some (flag (x == 0), s) := by
  intro outside w stack s
  refine .inr ⟨Word.ofBool (w == 0), s, ?_, run_one outside _ _⟩
  rw [Word.toInt_ofBool, Word.beq_toInt]
  rfl

/-- Flipping all bits of a number is a subtraction from `-1`. -/
theorem continues_flip :
    (ofList [.intConst (-1), .intBinary .xor]).Continues fun x s => some (-x - 1, s) := by
  intro outside w stack s
  refine .inr ⟨~~~w, s, ?_, ?_⟩
  · rw [Word.toInt_not]
  · have hones : w ^^^ BitVec.ofInt 32 (-1) = ~~~w := BitVec.xor_allOnes
    rw [← hones]
    rfl

/-- A choice goes on with the meaning of the arm that is taken. -/
theorem Computes.continues_ifElse {m' : Meaning} (ha : a.Computes m) (hb : b.Computes m') :
    (ifElse a b).Continues fun x s => if x = 0 then m' s else m s := by
  intro outside w stack s
  show Gives stack (if w.toInt = 0 then m' s.ints else m s.ints) _
  -- Either arm starts on an empty stack, and its one value goes on the stack around it.
  have harm : ∀ {c : Code} {n : Meaning}, c.Computes n →
      Gives stack (n s.ints) ((run outside c ⟨[], s⟩).bind fun inner =>
        (inner.handOver stack).bind .ok) := by
    intro c n hc
    rcases hc outside [] s with ⟨hn, hrun⟩ | ⟨w', s', hn, hrun⟩
    · rw [hrun]
      exact .inl ⟨hn, rfl⟩
    · rw [hrun]
      exact .inr ⟨w', s', hn, rfl⟩
  simp only [ifElse, run]
  by_cases hw : w = 0
  · rw [if_pos ((Word.toInt_eq_zero_iff w).mpr hw), if_pos hw]
    exact harm hb
  · rw [if_neg (mt (Word.toInt_eq_zero_iff w).mp hw), if_neg hw]
    exact harm ha

theorem Computes.drop (ha : a.Computes m) : (a ++ one .drop).Performs m := by
  intro outside stack s
  rw [run_append]
  rcases ha outside stack s with ⟨hm, hrun⟩ | ⟨w, s', hm, hrun⟩
  · rw [hrun]
    exact .inl ⟨hm, rfl⟩
  · rw [hrun]
    exact .inr ⟨w.toInt, s', hm, rfl⟩

/-! ## Variables -/

section Variables

variable {v : Variable} (hr : v.register? = some r)

include hr

theorem exec_get (outside : Instr → Config → Except Fault Config) (stack : List Word)
    (s : Store Word) : (Instr.get v).exec outside ⟨stack, s⟩ = .ok ⟨s r :: stack, s⟩ := by
  obtain ⟨name, scope, ty⟩ := v
  cases scope <;> cases hr <;> rfl

theorem exec_set : ∃ i, Instr.set v = .ok i ∧ ∀ outside w stack s,
    i.exec outside ⟨w :: stack, s⟩ = .ok ⟨stack, s.set r w⟩ := by
  obtain ⟨name, scope, ty⟩ := v
  cases scope <;> cases hr <;> exact ⟨_, rfl, fun _ _ _ _ => rfl⟩

theorem exec_tee (hlocal : v.isLocal = true) (outside : Instr → Config → Except Fault Config)
    (w : Word) (stack : List Word) (s : Store Word) :
    (Instr.localTee v.name).exec outside ⟨w :: stack, s⟩ = .ok ⟨w :: stack, s.set r w⟩ := by
  obtain ⟨name, scope, ty⟩ := v
  cases scope <;> cases hr <;> first | rfl | cases hlocal

theorem computes_get : (one (.get v)).Computes fun s => some (s r, s) := by
  intro outside stack s
  rw [run_one, exec_get hr]
  exact .inr ⟨s r, s, rfl, rfl⟩

/-- Assigning keeps the value on the stack, whether or not there is one instruction for it. -/
theorem continues_tee (hlocal : v.isLocal = true) :
    (one (.localTee v.name)).Continues fun x s => some (x, s.set r x) := by
  intro outside w stack s
  rw [run_one, exec_tee hr hlocal]
  exact .inr ⟨w, s.set r w, by rw [Store.ints_set], rfl⟩

theorem continues_set_get {i : Instr} (hi : ∀ outside w stack s,
    i.exec outside ⟨w :: stack, s⟩ = .ok ⟨stack, s.set r w⟩) :
    (ofList [i, .get v]).Continues fun x s => some (x, s.set r x) := by
  intro outside w stack s
  simp only [run_ofList_cons, hi, Except.bind, exec_get hr, Store.set_self, run_ofList_nil]
  exact .inr ⟨w, s.set r w, by rw [Store.ints_set], rfl⟩

omit hr in
theorem Computes.performs_set (ha : a.Computes m) {i : Instr} (hi : ∀ outside w stack s,
    i.exec outside ⟨w :: stack, s⟩ = .ok ⟨stack, s.set r w⟩) :
    (a ++ one i).Performs fun s => (m s).bind fun p => some (p.1, p.2.set r p.1) := by
  intro outside stack s
  show Keeps stack ((m s.ints).bind fun p => some (p.1, p.2.set r p.1)) _
  rw [run_append]
  rcases ha outside stack s with ⟨hm, hrun⟩ | ⟨w, s', hm, hrun⟩
  · rw [hm, hrun]
    exact .inl ⟨rfl, rfl⟩
  · rw [hm, hrun]
    refine .inr ⟨w.toInt, s'.set r w, ?_, (run_one outside _ _).trans (hi outside w stack s')⟩
    rw [Store.ints_set]
    rfl

/-- Counting a variable up or down. -/
theorem performs_count {i : Instr} (hi : ∀ outside w stack s,
    i.exec outside ⟨w :: stack, s⟩ = .ok ⟨stack, s.set r w⟩) {op : IntOp}
    {f : Int → Int → Option Int} {amount : Int}
    (hop : ∀ x y, (op.apply x y).map BitVec.toInt = f x.toInt y.toInt)
    (hf : ∀ x, f x 1 = some (wrap (x + amount))) :
    (ofList [.get v, .intConst 1, .intBinary op, i]).Performs fun s =>
      some (s r, s.set r (wrap (s r + amount))) := by
  have hnext := (computes_get hr).append (continues_intConst 1 hop)
  refine (hnext.performs_set hi).congr fun s => ?_
  have hone : wrap 1 = 1 := rfl
  simp [hone, hf]

/-- The old value may be left below. -/
theorem Performs.computes_get_append (hb : b.Performs m) :
    (one (.get v) ++ b).Computes fun s => (m s).bind fun p => some (s r, p.2) := by
  intro outside stack s
  show Gives stack ((m s.ints).bind fun p => some (s.ints r, p.2)) _
  rw [run_append, run_one, exec_get hr]
  show Gives stack _ (run outside b ⟨s r :: stack, s⟩)
  rcases hb outside (s r :: stack) s with ⟨hm, hrun⟩ | ⟨x, s', hm, hrun⟩
  · rw [hm, hrun]
    exact .inl ⟨rfl, rfl⟩
  · rw [hm, hrun]
    exact .inr ⟨s r, s', rfl, rfl⟩

end Variables

end Code

end WasmBackend
