import Mathlib.Algebra.Group.Int.Defs
import Mathlib.Algebra.Group.Nat.Defs
import WasmBackend.Proofs.Data.Faithful
import WasmBackend.Proofs.Memory.Literals

/-!
# Integer constants in data and in code

An integer constant can get into memory in two ways: as bytes of a data block, or as the operand of
an instruction that is stored when the program runs. The first way cuts it to the width of its slot
at once, the second to a word before. That makes no difference (`integer_constants_agree`), and
neither does it make one whether a constant is negated before it is cut or by the code. Floats are
left out.
-/

namespace WasmBackend

open Lower

/-! ## What a slot can hold -/

/-- The smallest and the largest number that a slot can hold. -/
def Scalar.bounds (s : Scalar) : Int × Int :=
  if s.isSigned then (-(2 ^ (8 * s.size - 1)), 2 ^ (8 * s.size - 1) - 1)
  else (0, 2 ^ (8 * s.size) - 1)

/-- What is left of a number differs from it by a multiple of the slot's range, and fits. -/
theorem Scalar.wrap_range (s : Scalar) (n : Int) :
    s.wrap n % 2 ^ (8 * s.size) = n % 2 ^ (8 * s.size) ∧
      s.bounds.1 ≤ s.wrap n ∧ s.wrap n ≤ s.bounds.2 := by
  have hpos : 0 < 256 ^ s.size := Nat.pow_pos (by decide)
  have hmod : n.bmod (256 ^ s.size) % (256 ^ s.size : Nat) = n % (256 ^ s.size : Nat) :=
    Int.bmod_emod
  have hlow := Int.le_bmod (x := n) hpos
  have hhigh := Int.bmod_lt (x := n) hpos
  unfold wrap bounds
  cases s <;>
    simp only [isSigned, size, if_true, if_false, Bool.false_eq_true] at hmod hlow hhigh ⊢ <;> omega

/-! ## Storing and loading -/

namespace Memory

/-- The second memory has these bytes at this address, and is like the first one elsewhere. -/
structure Receives (m m' : Memory) (address : Nat) (bytes : List UInt8) : Prop where
  size : m'.size = m.size
  shows : m'.Shows address bytes
  elsewhere : ∀ i, i < address ∨ address + bytes.length ≤ i → m'.bytes i = m.bytes i

variable {s : Scalar} (hs : s ≠ .f32) (v : Int64) {m : Memory} {base : Word} {offset : Nat}
include hs

theorem store_constant (hholds : m.holds s base offset = true) :
    ∃ m', m.store s base offset (Constant.int v).word = .ok m' ∧
      m.Receives m' (base.toNat + offset) ((Constant.int v).encode s) := by
  refine ⟨_, store_ok.mpr ⟨hholds, rfl⟩, rfl, ?_, fun i hi => if_neg ?_⟩
  · rw [Constant.encode_eq_word hs]
    exact m.write_shows _ _ _
  · rw [Constant.length_encode] at hi
    omega

/-- Where memory shows the bytes of a constant, a load finds what is left of it. -/
theorem load_shown (hholds : m.holds s base offset = true)
    (hshows : m.Shows (base.toNat + offset) ((Constant.int v).encode s)) :
    m.load s base offset = .ok (.ofInt 32 (s.wrap v.toInt)) := by
  rw [Constant.encode_of_ne_f32 hs] at hshows
  rw [load_eq, if_pos hholds, hshows.number_littleEndian]
  exact congrArg _ (s.extend_mod v)

end Memory

/-! ## Negation -/

/-- A negated number that is cut is the cut number negated, also for the least number, which is its
own negative. -/
theorem wrapped_neg (v : Int64) :
    BitVec.ofInt 32 (Instr.wrapped (-v)) = 0 - BitVec.ofInt 32 (Instr.wrapped v) := by
  have hword (n : Int64) : BitVec.ofInt 32 (Instr.wrapped n) = n.toInt32.toBitVec :=
    BitVec.ofInt_toInt
  rw [hword, hword, Int64.toInt32_neg, Int32.toBitVec_neg]
  exact (BitVec.zero_sub _).symm

/-- The code of a negated literal, and what it would be if nothing were folded. -/
theorem lower_negated {sc : Scope} {id operand : ExprId} {v : Int64}
    (hid : sc.arena.expr? id = some (.unary .neg operand))
    (hoperand : sc.arena.expr? operand = some (.int v)) :
    lower sc id = .ok (.one (.intConst (Instr.wrapped (-v)))) ∧
      lower sc operand = .ok (.one (.intConst (Instr.wrapped v))) := by
  have hconstant : sc.constant? id = some (.int (-v)) := by
    simp only [Scope.constant?, Constant.ofExpr?, hid, hoperand]
  constructor
  · rw [lower, descend_eq]
    simp only [lowerStep, Scope.expr_eq_ok.mpr hid, Compiled.ok_bind, unaryWith, negateWith,
      hconstant]
    rfl
  · rw [lower, descend_eq]
    simp only [lowerStep, Scope.expr_eq_ok.mpr hoperand, Compiled.ok_bind]
    rfl

/-! ## One meaning -/

/-- A constant means the same number in a slot, whether it gets there as data or by code. -/
structure Constant.Agrees (s : Scalar) (v : Int64) : Prop where
  /-- The data has as many bytes as the slot, and they stand for the number modulo its range. -/
  length : ((Constant.int v).encode s).length = s.size
  number : (readLittleEndian ((Constant.int v).encode s) : Int) = v.toInt % 2 ^ (8 * s.size)
  /-- Code that pushes the constant and stores it writes the same bytes. -/
  lowered : ∀ sc id, sc.constant? id = some (.int v) →
    asLane sc id s.lane = .ok (.one (.intConst (Instr.wrapped v)))
  stored : ∀ env base offset stack (state : MachineState),
    state.memory.holds s base offset = true → ∃ m : Memory,
      (Code.ofList [.intConst (Instr.wrapped v), .store s offset]).execute env (base :: stack)
        state = .ok (stack, { state with memory := m }) ∧
      state.memory.Receives m (base.toNat + offset) ((Constant.int v).encode s)
  /-- A load of these bytes finds the number that the slot can hold in place of the constant. -/
  loaded : ∃ n, n % 2 ^ (8 * s.size) = v.toInt % 2 ^ (8 * s.size) ∧
    s.bounds.1 ≤ n ∧ n ≤ s.bounds.2 ∧
    ∀ env base offset stack (state : MachineState), state.memory.holds s base offset = true →
      state.memory.Shows (base.toNat + offset) ((Constant.int v).encode s) →
      (Code.one (.load s offset)).execute env (base :: stack) state =
        .ok (.ofInt 32 n :: stack, state)
  /-- A negated literal is folded to what negating it by code leaves. -/
  negated : BitVec.ofInt 32 (Instr.wrapped (-v)) = 0 - BitVec.ofInt 32 (Instr.wrapped v) ∧
    ∀ (sc : Scope) id operand, sc.arena.expr? id = some (.unary .neg operand) →
      sc.arena.expr? operand = some (.int v) →
      ∃ folded literal, lower sc id = .ok folded ∧ lower sc operand = .ok literal ∧
        ∀ env stack state, folded.execute env stack state =
          (.one (.intConst 0) ++ literal ++ .one (.intBinary .sub)).execute env stack state

theorem integer_constants_agree {s : Scalar} (hs : s ≠ .f32) (v : Int64) :
    Constant.Agrees s v where
  length := (Constant.int v).length_encode s
  number := by
    have hpow : (2 : Int) ^ (8 * s.size) = 256 ^ s.size := by cases s <;> rfl
    rw [Constant.read_encode_int hs, hpow]
  lowered := by
    intro sc id hconstant
    have hvoid : s.lane ≠ .void := by cases s <;> simp [Scalar.lane]
    simp only [asLane, asLaneWith, if_neg hvoid, hconstant, Instr.constant_of_ne_f32 hs]
    rfl
  stored := by
    intro env base offset stack state hholds
    obtain ⟨m, hstore, hreceives⟩ := Memory.store_constant hs v hholds
    refine ⟨m, ?_, hreceives⟩
    show ((state.memory.store s base offset (Constant.int v).word).map _).bind _ = _
    rw [hstore]
    rfl
  loaded := by
    obtain ⟨hmod, hlow, hhigh⟩ := s.wrap_range v.toInt
    refine ⟨s.wrap v.toInt, hmod, hlow, hhigh, fun env base offset stack state hholds hshows => ?_⟩
    rw [Code.execute_one]
    show (state.memory.load s base offset).map _ = _
    rw [Memory.load_shown hs v hholds hshows]
    rfl
  negated := by
    refine ⟨wrapped_neg v, fun sc id operand hid hoperand => ?_⟩
    obtain ⟨hfolded, hliteral⟩ := lower_negated hid hoperand
    refine ⟨_, _, hfolded, hliteral, fun env stack state => ?_⟩
    show Except.ok (BitVec.ofInt 32 (Instr.wrapped (-v)) :: stack, state) =
      .ok ((0 - BitVec.ofInt 32 (Instr.wrapped v)) :: stack, state)
    rw [wrapped_neg]

/-- A signed half word keeps 25536 of -40000. -/
theorem halfWord_constants_agree : Scalar.i16 ≠ .f32 ∧ Constant.Agrees .i16 (-40000) ∧
    (Constant.int (-40000)).encode .i16 = [0xC0, 0x63] ∧ Scalar.i16.wrap (-40000) = 25536 :=
  ⟨by decide, integer_constants_agree (by decide) (-40000), by decide, by decide⟩

end WasmBackend
