import WasmBackend.Proofs.Memory.Machine
import WasmBackend.Proofs.Shapes

/-!
# Expressions without effects

An expression without calls, updates and assignments in it is lowered to **pure** code
(`Lower.lower_pure`): instructions that put one value in the place of their operands, and choices
between such code. Pure code is **steady**: it adds one value to the stack and leaves the rest of
the stack and the state as they are, or it faults. When it faults is left to `Memory.Depth`.
-/

namespace WasmBackend

/-! ## Steady code -/

/-- The instruction replaces the two values on top of the stack by one, and changes nothing else. -/
def Instr.Combines (env : Environment) (i : Instr) : Prop :=
  ∃ apply : Word → Word → Except Fault Word, ∀ x y stack state,
    i.perform env (y :: x :: stack) state = (apply x y).map fun w => (w :: stack, state)

namespace Code

variable (env : Environment)

/-- The code adds this value to any stack, and changes nothing else. -/
def Pushes (code : Code) (value : MachineState → Except Fault Word) : Prop :=
  ∀ stack state, code.execute env stack state = (value state).map fun w => (w :: stack, state)

/-- The code adds some value to any stack, and changes nothing else. -/
def Steady (code : Code) : Prop := ∃ value, code.Pushes env value

/-- The code replaces the value on top of the stack, and changes nothing else. -/
def Maps (code : Code) : Prop :=
  ∃ next : MachineState → Word → Except Fault Word, ∀ a stack state,
    code.execute env (a :: stack) state = (next state a).map fun w => (w :: stack, state)

variable {env} {a b : Code}

theorem Steady.append_maps (ha : a.Steady env) (hb : b.Maps env) : (a ++ b).Steady env := by
  obtain ⟨value, hvalue⟩ := ha
  obtain ⟨next, hnext⟩ := hb
  refine ⟨fun state => (value state).bind (next state), fun stack state => ?_⟩
  rw [execute_append, hvalue stack state]
  show _ = ((value state).bind (next state)).map _
  cases value state with
  | error fault => rfl
  | ok w => exact hnext w stack state

/-- The value below a steady one is still there for an operator that takes both. -/
theorem Steady.maps_append {i : Instr} (ha : a.Steady env) (hi : i.Combines env) :
    (a ++ .one i).Maps env := by
  obtain ⟨value, hvalue⟩ := ha
  obtain ⟨apply, happly⟩ := hi
  refine ⟨fun state x => (value state).bind (apply x), fun x stack state => ?_⟩
  rw [execute_append, hvalue (x :: stack) state]
  show _ = ((value state).bind (apply x)).map _
  cases value state with
  | error fault => rfl
  | ok y =>
    show (Code.one i).execute env (y :: x :: stack) state = _
    rw [execute_one]
    exact happly x y stack state

/-- A choice between steady arms by the value on top. -/
theorem Steady.maps_ifElse (ha : a.Steady env) (hb : b.Steady env) : (ifElse a b).Maps env := by
  obtain ⟨first, hfirst⟩ := ha
  obtain ⟨second, hsecond⟩ := hb
  refine ⟨fun state c => if c = 0 then second state else first state, fun c stack state => ?_⟩
  simp only [ifElse, execute, hfirst [] state, hsecond [] state]
  split
  · cases second state <;> rfl
  · cases first state <;> rfl

theorem maps_of_perform {i : Instr} (next : MachineState → Word → Except Fault Word)
    (h : ∀ x stack state, i.perform env (x :: stack) state =
      (next state x).map fun w => (w :: stack, state)) : (one i).Maps env :=
  ⟨next, fun x stack state => by rw [execute_one, h]⟩

end Code

/-! ## Pure code -/

/-- Code made of instructions that put one value in the place of their operands and of choices, each
of which finds its operands. It takes so many values, none or one, and leaves one. -/
inductive Code.Pure : Nat → Code → Prop
  | push {i : Instr} (hi : i.operands? = some 0) : Code.Pure 0 (.one i)
  | change {i : Instr} (hi : i.operands? = some 1) : Code.Pure 1 (.one i)
  | combine {a : Code} {i : Instr} (ha : Code.Pure 0 a) (hi : i.operands? = some 2) :
      Code.Pure 1 (a ++ .one i)
  | ifElse {a b : Code} (ha : Code.Pure 0 a) (hb : Code.Pure 0 b) : Code.Pure 1 (.ifElse a b)
  | append {a b : Code} (ha : Code.Pure 0 a) (hb : Code.Pure 1 b) : Code.Pure 0 (a ++ b)

namespace Code

variable {env : Environment}

theorem steady_one {i : Instr} (hi : i.operands? = some 0) : (one i).Steady env := by
  cases i with
  | intConst n => exact ⟨fun _ => .ok (.ofInt 32 n), fun _ _ => by rw [execute_one]; rfl⟩
  | floatConst x =>
    exact ⟨fun _ => .ok (env.floats.literal x), fun _ _ => by rw [execute_one]; rfl⟩
  | localGet name =>
    exact ⟨fun state => .ok (state.registers (.localVar name)), fun _ _ => by rw [execute_one]; rfl⟩
  | globalGet name =>
    exact ⟨fun state => .ok (state.registers (.globalVar name)),
      fun _ _ => by rw [execute_one]; rfl⟩
  | _ => cases hi

theorem maps_one {i : Instr} (hi : i.operands? = some 1) : (one i).Maps env := by
  cases i with
  | intEqz => exact maps_of_perform (fun _ x => .ok (Word.ofBool (x == 0))) fun _ _ _ => rfl
  | floatNeg => exact maps_of_perform (fun _ x => .ok (env.floats.neg x)) fun _ _ _ => rfl
  | floatOfInt => exact maps_of_perform (fun _ x => .ok (env.floats.ofInt x)) fun _ _ _ => rfl
  | intOfFloat =>
    refine maps_of_perform (fun _ x => (env.floats.toInt? x).elim (.error .trap) .ok)
      fun x stack state => ?_
    simp only [Instr.perform]
    cases env.floats.toInt? x <;> rfl
  | load s offset =>
    exact maps_of_perform (fun state x => state.memory.load s x offset) fun _ _ _ => rfl
  | _ => cases hi

theorem combines_of_operands {i : Instr} (hi : i.operands? = some 2) : i.Combines env := by
  cases i with
  | intBinary op =>
    refine ⟨fun x y => (op.apply x y).elim (.error .trap) .ok, fun x y stack state => ?_⟩
    simp only [Instr.perform, Instr.exec]
    cases op.apply x y <;> rfl
  | floatBinary op => exact ⟨fun x y => .ok (env.floats.binary op x y), fun _ _ _ _ => rfl⟩
  | _ => cases hi

namespace Pure

/-- Pure code that takes nothing is steady, other pure code maps the value that it takes. -/
theorem steady_or_maps {takes : Nat} {code : Code} (h : Pure takes code) :
    (takes = 0 → code.Steady env) ∧ (takes = 1 → code.Maps env) := by
  induction h with
  | push hi => exact ⟨fun _ => steady_one hi, by simp⟩
  | change hi => exact ⟨by simp, fun _ => maps_one hi⟩
  | combine _ hi ih => exact ⟨by simp, fun _ => (ih.1 rfl).maps_append (combines_of_operands hi)⟩
  | ifElse _ _ iha ihb => exact ⟨by simp, fun _ => (iha.1 rfl).maps_ifElse (ihb.1 rfl)⟩
  | append _ _ iha ihb => exact ⟨fun _ => (iha.1 rfl).append_maps (ihb.2 rfl), by simp⟩

theorem steady {code : Code} (h : Pure 0 code) : code.Steady env := h.steady_or_maps.1 rfl

theorem get (v : Variable) : Pure 0 (one (.get v)) := .push (Instr.get_operands v)

end Pure

end Code

/-! ## Expressions -/

/-- Rules for expressions without effects put pure code together to pure code. -/
theorem Scope.composes_pure (sc : Scope) : sc.Composes False (Code.Pure 0) where
  const _ _ hi := .push hi
  get _ v _ := .get v
  flattened _ _ v _ := .get v
  change _ _ hi ha := ha.append (.change hi)
  combine _ _ _ hi ha hb := by
    rw [Code.append_assoc]
    exact ha.append (.combine hb hi)
  ifElse _ _ _ ha hb hc := ha.append (.ifElse hb hc)
  append := nofun
  plain := nofun
  set := nofun
  tee := nofun
  teeFlattened := nofun
  call := nofun

namespace Lower

variable {sc : Scope}

variable {env : Environment}

theorem memberPlace_steady {base : ExprId} {name : String} {p : Place}
    (h : memberPlace sc base name = .ok p) : p.address.Steady env :=
  (sc.composes_pure.memberPlace h).steady

theorem asLane_steady {id : ExprId} (h : sc.arena.EffectFree id) {lane : Lane} {code : Code}
    (hcode : asLane sc id lane = .ok code) : code.Steady env :=
  (sc.composes_pure.asLane (.inr h) hcode).steady

end Lower

end WasmBackend
