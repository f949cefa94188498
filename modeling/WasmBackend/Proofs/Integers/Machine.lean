import WasmBackend.Wat.Code

/-!
# A machine for integer code

The machine works on 32-bit words: a stack of operands and a store of locals and globals. It knows
integer instructions and instructions on variables. What it does with the others (floats, memory,
calls) is a parameter `outside`, so whatever is proved of integer code holds wherever it runs.

A run ends with a new state or with a fault. **Trapping** is what division by zero does; code is
**stuck** if an instruction does not find its operands, which never happens to valid code. The two
are kept apart so that a statement about traps cannot be met by invalid code.

An arm of a choice has a stack of its own, and hands one word to the stack around it.
-/

namespace WasmBackend

abbrev Word := BitVec 32

/-- Where a variable is kept on the machine. Parameters are locals. -/
inductive Register where
  | localVar (name : String)
  | globalVar (name : String)
  deriving DecidableEq, Repr

/-- What the registers hold. -/
def Store (α : Type) := Register → α

namespace Store

variable {α : Type}

def set (s : Store α) (r : Register) (a : α) : Store α := fun r' => if r' = r then a else s r'

@[simp] theorem set_self (s : Store α) (r : Register) (a : α) : s.set r a r = a := if_pos rfl

/-- The numbers that the words of a store stand for. -/
def ints (s : Store Word) : Store Int := fun r => (s r).toInt

theorem ints_set (s : Store Word) (r : Register) (w : Word) :
    (s.set r w).ints = s.ints.set r w.toInt := by
  funext r'
  unfold ints set
  split <;> rfl

end Store

/-- The operand stack, top first, and the variables. -/
structure Config where
  stack : List Word
  store : Store Word

/-- A trap is an outcome of the target language. Code gets stuck for want of operands, or with more
values at the end of an arm than one. -/
inductive Fault where
  | trap
  | stuck
  deriving DecidableEq, Repr

/-- One if the condition holds, else zero. -/
def Word.ofBool (b : Bool) : Word := if b then 1 else 0

/-! ## Instructions -/

/-- An integer operator on words. Division traps if there is no quotient, or none that fits. -/
def IntOp.apply : IntOp → Word → Word → Option Word
  | .add, a, b => some (a + b)
  | .sub, a, b => some (a - b)
  | .mul, a, b => some (a * b)
  | .divS, a, b => if b = 0 ∨ a = .intMin 32 ∧ b = -1 then none else some (a.sdiv b)
  | .remS, a, b => if b = 0 then none else some (a.srem b)
  | .and, a, b => some (a &&& b)
  | .or, a, b => some (a ||| b)
  | .xor, a, b => some (a ^^^ b)
  | .shl, a, b => some (a <<< (b.toNat % 32))
  | .shrS, a, b => some (a.sshiftRight (b.toNat % 32))
  | .eq, a, b => some (Word.ofBool (a == b))
  | .ne, a, b => some (Word.ofBool (a != b))
  | .ltS, a, b => some (Word.ofBool (a.slt b))
  | .leS, a, b => some (Word.ofBool (a.sle b))
  | .gtS, a, b => some (Word.ofBool (b.slt a))
  | .geS, a, b => some (Word.ofBool (b.sle a))

section

variable (outside : Instr → Config → Except Fault Config)

/-- One instruction. What is not about integers and variables is left to `outside`. -/
def Instr.exec (i : Instr) (c : Config) : Except Fault Config :=
  match i, c.stack with
  | .intConst n, stack => .ok ⟨.ofInt 32 n :: stack, c.store⟩
  | .intBinary op, b :: a :: stack =>
    match op.apply a b with
    | some w => .ok ⟨w :: stack, c.store⟩
    | none => .error .trap
  | .intBinary _, _ => .error .stuck
  | .intEqz, a :: stack => .ok ⟨Word.ofBool (a == 0) :: stack, c.store⟩
  | .intEqz, _ => .error .stuck
  | .localGet name, stack => .ok ⟨c.store (.localVar name) :: stack, c.store⟩
  | .localSet name, a :: stack => .ok ⟨stack, c.store.set (.localVar name) a⟩
  | .localSet _, _ => .error .stuck
  | .localTee name, a :: stack => .ok ⟨a :: stack, c.store.set (.localVar name) a⟩
  | .localTee _, _ => .error .stuck
  | .globalGet name, stack => .ok ⟨c.store (.globalVar name) :: stack, c.store⟩
  | .globalSet name, a :: stack => .ok ⟨stack, c.store.set (.globalVar name) a⟩
  | .globalSet _, _ => .error .stuck
  | .drop, _ :: stack => .ok ⟨stack, c.store⟩
  | .drop, _ => .error .stuck
  | .unreachable, _ => .error .trap
  | i, _ => outside i c

/-- Puts the one value of an inner stack on the stack around it. -/
def Config.handOver (stack : List Word) (inner : Config) : Except Fault Config :=
  match inner.stack with
  | [v] => .ok ⟨v :: stack, inner.store⟩
  | _ => .error .stuck

namespace Code

/-- Runs code to its end. -/
def run : Code → Config → Except Fault Config
  | .nil, c => .ok c
  | .instr i rest, c => (i.exec outside c).bind (run rest)
  | .choose thenCode elseCode rest, c =>
    match c.stack with
    | [] => .error .stuck
    | w :: stack =>
      let arm := if w = 0 then run elseCode else run thenCode
      (arm ⟨[], c.store⟩).bind fun inner => (inner.handOver stack).bind (run rest)

@[simp] theorem run_one (i : Instr) (c : Config) : run outside (.one i) c = i.exec outside c := by
  simp only [one, run]
  cases i.exec outside c <;> rfl

@[simp] theorem run_ofList_nil (c : Config) : run outside (.ofList []) c = .ok c := rfl

@[simp] theorem run_ofList_cons (i : Instr) (rest : List Instr) (c : Config) :
    run outside (.ofList (i :: rest)) c = (i.exec outside c).bind (run outside (.ofList rest)) :=
  rfl

theorem run_append (a b : Code) (c : Config) :
    run outside (a ++ b) c = (run outside a c).bind (run outside b) := by
  have happ : ∀ c d : Code, c ++ d = c.append d := fun _ _ => rfl
  induction a generalizing c with
  | nil => rfl
  | instr i rest ih =>
    simp only [happ, append, run] at ih ⊢
    cases i.exec outside c with
    | error fault => rfl
    | ok c => exact ih c
  | choose thenCode elseCode rest _ _ ih =>
    simp only [happ, append, run] at ih ⊢
    cases c.stack with
    | nil => rfl
    | cons w stack =>
      -- The arms are the same on both sides; only what follows them is longer.
      simp only
      cases (if w = 0 then run outside elseCode else run outside thenCode) ⟨[], c.store⟩ with
      | error fault => rfl
      | ok inner =>
        simp only [Except.bind]
        cases inner.handOver stack with
        | error fault => rfl
        | ok c => exact ih c

end Code

end

end WasmBackend
