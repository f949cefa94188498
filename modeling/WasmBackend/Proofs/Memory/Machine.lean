import Mathlib.Algebra.Group.Nat.Defs
import WasmBackend.Proofs.Integers.Machine

/-!
# A machine with memory

What code works on besides the operand stack is a `MachineState`: the registers, and a linear memory
of bytes. Integer instructions and instructions on variables do what they do on the integer machine.
A memory instruction does what its opcode says (`Access.ofLoad?`, `Access.ofStore?`): it moves so
many bytes, low byte first; a store drops what does not fit, a load extends what it finds by the
sign or by zero. An access that is not inside the memory traps. Which opcode a scalar gets is the
choice of lowering; that it is the right one is proved (`Memory.load_eq`, `Memory.store_eq`).

Floats travel as words. What the float operators compute and what a call does is left open
(`Environment`), but a float operator sees nothing of the state.

Of memory two laws are needed: what a place reads after it was written (`load_store`), and that a
store shows nowhere else (`load_store_apart`).
-/

namespace WasmBackend

/-! ## Memory -/

/-- Linear memory. What lies outside of its size cannot be read or written. -/
structure Memory where
  size : Nat
  bytes : Nat → BitVec 8

namespace Scalar

/-- The word that so many low bits of a scalar stand for. -/
def extend (s : Scalar) (bits : Nat) : Word :=
  if s.isSigned then (BitVec.ofNat (8 * s.size) bits).signExtend 32
  else (BitVec.ofNat (8 * s.size) bits).setWidth 32

/-- What is left of a word that is stored and read again. As a number: `Scalar.narrow_eq`. -/
def narrow (s : Scalar) (w : Word) : Word := s.extend (w.toNat % 256 ^ s.size)

/-- The word survives being stored. -/
def Fits (s : Scalar) (w : Word) : Prop := s.narrow w = w

instance (s : Scalar) (w : Word) : Decidable (s.Fits w) := inferInstanceAs (Decidable (_ = _))

end Scalar

/-! ## Memory instructions -/

/-- What a memory instruction moves: so many bytes, which a load fills up to a word by the sign or
by zero. -/
structure Access where
  bytes : Nat
  signed : Bool := false

namespace Access

/-- The loads of the target, by their opcodes. -/
def ofLoad? : String → Option Access
  | "i32.load8_s" => some ⟨1, true⟩
  | "i32.load8_u" => some ⟨1, false⟩
  | "i32.load16_s" => some ⟨2, true⟩
  | "i32.load16_u" => some ⟨2, false⟩
  | "i32.load" => some ⟨4, false⟩
  | "f32.load" => some ⟨4, false⟩
  | _ => none

/-- The stores of the target, by their opcodes. -/
def ofStore? : String → Option Access
  | "i32.store8" => some ⟨1, false⟩
  | "i32.store16" => some ⟨2, false⟩
  | "i32.store" => some ⟨4, false⟩
  | "f32.store" => some ⟨4, false⟩
  | _ => none

/-- The word that a load makes of the bits it finds. -/
def extend (a : Access) (bits : Nat) : Word :=
  if a.signed then (BitVec.ofNat (8 * a.bytes) bits).signExtend 32
  else (BitVec.ofNat (8 * a.bytes) bits).setWidth 32

end Access

/-- The opcode that is printed for a load of the scalar moves its bytes and fills them up with its
sign. A whole word has nothing to fill up. -/
theorem Scalar.ofLoad?_loadOpcode (s : Scalar) :
    ∃ a, Access.ofLoad? (Instr.loadOpcode s) = some a ∧ a.bytes = s.size ∧ a.extend = s.extend := by
  cases s with
  | i32 | f32 => exact ⟨_, rfl, rfl, by funext bits; simp [Access.extend, extend, isSigned, size]⟩
  | i8 | u8 | bool | i16 | u16 | u32 => exact ⟨_, rfl, rfl, rfl⟩

theorem Scalar.ofStore?_storeOpcode (s : Scalar) :
    Access.ofStore? (Instr.storeOpcode s) = some ⟨s.size, false⟩ := by
  cases s <;> rfl

namespace Memory

/-- The number that a run of bytes stands for, low byte first. -/
def number (m : Memory) : Nat → Nat → Nat
  | _, 0 => 0
  | address, count + 1 => (m.bytes address).toNat + 256 * m.number (address + 1) count

/-- Writes the low bytes of a number. -/
def write (m : Memory) (address count value : Nat) : Memory :=
  { m with bytes := fun i =>
      if address ≤ i ∧ i < address + count then .ofNat 8 (value / 256 ^ (i - address))
      else m.bytes i }

/-- Written bytes are read back from any of them on. -/
theorem number_write (m : Memory) (address count value : Nat) :
    ∀ rest skipped, skipped + rest = count →
      (m.write address count value).number (address + skipped) rest =
        value / 256 ^ skipped % 256 ^ rest := by
  intro rest
  induction rest with
  | zero => intro skipped _; simp [number, Nat.mod_one]
  | succ rest ih =>
    intro skipped hcount
    have hbyte : ((m.write address count value).bytes (address + skipped)).toNat =
        value / 256 ^ skipped % 256 := by
      simp only [write]
      rw [if_pos ⟨by omega, by omega⟩, Nat.add_sub_cancel_left]
      simp
    have hhigher : value / 256 ^ (skipped + 1) = value / 256 ^ skipped / 256 := by
      rw [Nat.pow_succ, Nat.div_div_eq_div_mul]
    rw [number, hbyte, Nat.add_assoc, ih (skipped + 1) (by omega), hhigher, Nat.pow_succ',
      Nat.mod_mul]

/-- Bytes outside the written ones are what they were. -/
theorem number_write_apart {m : Memory} {address count value start length : Nat}
    (h : start + length ≤ address ∨ address + count ≤ start) :
    (m.write address count value).number start length = m.number start length := by
  induction length generalizing start with
  | zero => rfl
  | succ length ih =>
    have hbyte : (m.write address count value).bytes start = m.bytes start :=
      if_neg (by omega)
    rw [number, number, hbyte, ih (by omega)]

/-! ## Loads and stores -/

/-- Performs the load with this opcode. Addresses do not wrap around. -/
def loadBy (m : Memory) (opcode : String) (base : Word) (offset : Nat) : Except Fault Word :=
  (Access.ofLoad? opcode).elim (.error .stuck) fun a =>
    if base.toNat + offset + a.bytes ≤ m.size then
      .ok (a.extend (m.number (base.toNat + offset) a.bytes))
    else .error .trap

/-- Performs the store with this opcode. -/
def storeBy (m : Memory) (opcode : String) (base : Word) (offset : Nat) (w : Word) :
    Except Fault Memory :=
  (Access.ofStore? opcode).elim (.error .stuck) fun a =>
    if base.toNat + offset + a.bytes ≤ m.size then
      .ok (m.write (base.toNat + offset) a.bytes w.toNat)
    else .error .trap

/-- Loads a scalar: what the opcode does that is printed for it. -/
def load (m : Memory) (s : Scalar) (base : Word) (offset : Nat) : Except Fault Word :=
  m.loadBy (Instr.loadOpcode s) base offset

/-- Stores a scalar: what the opcode does that is printed for it. -/
def store (m : Memory) (s : Scalar) (base : Word) (offset : Nat) (w : Word) :
    Except Fault Memory :=
  m.storeBy (Instr.storeOpcode s) base offset w

/-- Is the scalar at this address inside the memory? -/
def holds (m : Memory) (s : Scalar) (base : Word) (offset : Nat) : Bool :=
  base.toNat + offset + s.size ≤ m.size

theorem load_eq (m : Memory) (s : Scalar) (base : Word) (offset : Nat) :
    m.load s base offset =
      if m.holds s base offset then .ok (s.extend (m.number (base.toNat + offset) s.size))
      else .error .trap := by
  obtain ⟨a, ha, hbytes, hextend⟩ := s.ofLoad?_loadOpcode
  simp only [load, loadBy, ha, Option.elim_some, hbytes, hextend, holds, decide_eq_true_eq]

theorem store_eq (m : Memory) (s : Scalar) (base : Word) (offset : Nat) (w : Word) :
    m.store s base offset w =
      if m.holds s base offset then .ok (m.write (base.toNat + offset) s.size w.toNat)
      else .error .trap := by
  simp only [store, storeBy, s.ofStore?_storeOpcode, Option.elim_some, holds, decide_eq_true_eq]

variable {m m' : Memory} {s : Scalar} {base w : Word} {offset : Nat}

theorem holds_write (address count value : Nat) :
    (m.write address count value).holds s base offset = m.holds s base offset := rfl

theorem store_ok : m.store s base offset w = .ok m' ↔
    m.holds s base offset = true ∧ m' = m.write (base.toNat + offset) s.size w.toNat := by
  rw [store_eq]
  split
  · next h => simp [h, eq_comm]
  · next h => simp [h]

/-- A place that was written reads the word as far as it fits. -/
theorem load_store (h : m.store s base offset w = .ok m') :
    m'.load s base offset = .ok (s.narrow w) := by
  obtain ⟨hholds, rfl⟩ := store_ok.mp h
  have hbytes := m.number_write (base.toNat + offset) s.size w.toNat s.size 0 (by simp)
  rw [Nat.add_zero, Nat.pow_zero, Nat.div_one] at hbytes
  rw [load_eq, holds_write, if_pos hholds, hbytes]
  rfl

/-- A store does not show at a place apart from it. -/
theorem load_store_apart (h : m.store s base offset w = .ok m') {s' : Scalar} {base' : Word}
    {offset' : Nat} (hapart : base'.toNat + offset' + s'.size ≤ base.toNat + offset ∨
      base.toNat + offset + s.size ≤ base'.toNat + offset') :
    m'.load s' base' offset' = m.load s' base' offset' := by
  obtain ⟨-, rfl⟩ := store_ok.mp h
  rw [load_eq, load_eq, holds_write, number_write_apart hapart]

end Memory

/-! ## Running code -/

/-- What code may read and change besides the stack. -/
structure MachineState where
  registers : Store Word
  memory : Memory

namespace MachineState

def setLocal (state : MachineState) (name : String) (w : Word) : MachineState :=
  { state with registers := state.registers.set (.localVar name) w }

def setGlobal (state : MachineState) (name : String) (w : Word) : MachineState :=
  { state with registers := state.registers.set (.globalVar name) w }

end MachineState

/-- The stack and the state after a piece of code, or why it did not come to its end. -/
abbrev ExecResult := Except Fault (List Word × MachineState)

theorem ExecResult.bind_ok {α β : Type} {x : Except Fault α} {next : α → Except Fault β} {b : β} :
    x.bind next = .ok b ↔ ∃ a, x = .ok a ∧ next a = .ok b := by
  cases x <;> simp [Except.bind]

theorem ExecResult.map_ok {α β : Type} {x : Except Fault α} {g : α → β} {b : β} :
    x.map g = .ok b ↔ ∃ a, x = .ok a ∧ g a = b := by
  cases x <;> simp [Except.map]

/-- Float arithmetic, on the words that floats travel as. -/
structure FloatUnit where
  literal : FloatLiteral → Word
  binary : FloatOp → Word → Word → Word
  neg : Word → Word
  ofInt : Word → Word
  /-- Traps on what is no integer. -/
  toInt? : Word → Option Word

/-- What is not the machine's own: float arithmetic, and the functions that code calls. -/
structure Environment where
  floats : FloatUnit
  call : String → List Word → MachineState → ExecResult

/-- Floats and calls that do not matter. -/
def Environment.silent : Environment where
  floats := ⟨fun _ => 0, fun _ _ _ => 0, id, id, some⟩
  call _ _ _ := .error .stuck

variable (env : Environment)

/-- One instruction. Those on integers and variables leave the memory alone. -/
def Instr.perform : Instr → List Word → MachineState → ExecResult
  | .load s offset, base :: stack, state =>
    (state.memory.load s base offset).map fun w => (w :: stack, state)
  | .load _ _, _, _ => .error .stuck
  | .store s offset, w :: base :: stack, state =>
    (state.memory.store s base offset w).map fun m => (stack, { state with memory := m })
  | .store _ _, _, _ => .error .stuck
  | .floatConst x, stack, state => .ok (env.floats.literal x :: stack, state)
  | .floatBinary op, b :: a :: stack, state => .ok (env.floats.binary op a b :: stack, state)
  | .floatBinary _, _, _ => .error .stuck
  | .floatNeg, a :: stack, state => .ok (env.floats.neg a :: stack, state)
  | .floatNeg, _, _ => .error .stuck
  | .floatOfInt, a :: stack, state => .ok (env.floats.ofInt a :: stack, state)
  | .floatOfInt, _, _ => .error .stuck
  | .intOfFloat, a :: stack, state =>
    match env.floats.toInt? a with
    | some w => .ok (w :: stack, state)
    | none => .error .trap
  | .intOfFloat, _, _ => .error .stuck
  | .call name, stack, state => env.call name stack state
  | i, stack, state =>
    (i.exec (fun _ _ => .error .stuck) ⟨stack, state.registers⟩).map fun c =>
      (c.stack, { state with registers := c.store })

section Perform

variable (name : String) (w base : Word) (stack : List Word) (state : MachineState)

theorem Instr.perform_localGet : (Instr.localGet name).perform env stack state =
    .ok (state.registers (.localVar name) :: stack, state) := rfl

theorem Instr.perform_localSet : (Instr.localSet name).perform env (w :: stack) state =
    .ok (stack, state.setLocal name w) := rfl

theorem Instr.perform_localTee : (Instr.localTee name).perform env (w :: stack) state =
    .ok (w :: stack, state.setLocal name w) := rfl

theorem Instr.perform_globalSet : (Instr.globalSet name).perform env (w :: stack) state =
    .ok (stack, state.setGlobal name w) := rfl

theorem Instr.perform_store (s : Scalar) (offset : Nat) :
    (Instr.store s offset).perform env (w :: base :: stack) state =
      (state.memory.store s base offset w).map fun m => (stack, { state with memory := m }) := rfl

end Perform

/-- Puts the one value of an inner stack on the stack around it. -/
def ExecResult.handOver (stack : List Word) : List Word × MachineState → ExecResult
  | ([w], state) => .ok (w :: stack, state)
  | _ => .error .stuck

namespace Code

/-- Runs code to its end. An arm of a choice has a stack of its own. -/
def execute : Code → List Word → MachineState → ExecResult
  | .nil, stack, state => .ok (stack, state)
  | .instr i rest, stack, state =>
    (i.perform env stack state).bind fun r => rest.execute r.1 r.2
  | .choose _ _ _, [], _ => .error .stuck
  | .choose thenCode elseCode rest, w :: stack, state =>
    ((if w = 0 then elseCode.execute [] state else thenCode.execute [] state).bind
      (ExecResult.handOver stack)).bind fun r => rest.execute r.1 r.2

@[simp] theorem execute_one (i : Instr) (stack : List Word) (state : MachineState) :
    (Code.one i).execute env stack state = i.perform env stack state := by
  simp only [one, execute]
  cases i.perform env stack state <;> rfl

@[simp] theorem execute_ofList_cons (i : Instr) (rest : List Instr) (stack : List Word)
    (state : MachineState) : (Code.ofList (i :: rest)).execute env stack state =
      (i.perform env stack state).bind fun r => (Code.ofList rest).execute env r.1 r.2 := rfl

/-- Code in sequence runs in sequence. -/
theorem execute_append (a b : Code) (stack : List Word) (state : MachineState) :
    (a ++ b).execute env stack state =
      (a.execute env stack state).bind fun r => b.execute env r.1 r.2 := by
  have happ : ∀ c d : Code, c ++ d = c.append d := fun _ _ => rfl
  induction a generalizing stack state with
  | nil => rfl
  | instr i rest ih =>
    simp only [happ, append, execute] at ih ⊢
    cases i.perform env stack state with
    | error fault => rfl
    | ok r => exact ih r.1 r.2
  | choose thenCode elseCode rest _ _ ih =>
    cases stack with
    | nil => rfl
    | cons w stack =>
      simp only [happ, append, execute] at ih ⊢
      -- The arms are the same on both sides; only what follows them is longer.
      cases (if w = 0 then elseCode.execute env [] state
          else thenCode.execute env [] state).bind (ExecResult.handOver stack) with
      | error fault => rfl
      | ok r => exact ih r.1 r.2

end Code

end WasmBackend
