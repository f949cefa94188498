import WasmBackend.Lower.Module

/-!
# Operand-stack validation

The target accepts code only if every instruction finds the operands it wants on the stack. `check`
is that test for code that computes values: it runs the code on the *types* of the stack, top first,
and gives the types that are left, or nothing if some instruction does not find its operands.

What an instruction wants of a variable or a function is read off their declarations
(`StackContext`). Both arms of a choice start from an empty stack and leave one integer. Branches,
returns and `unreachable` have no place in code that computes values, and are not accepted.
-/

namespace WasmBackend

/-- The machine type in which a lane travels. The void lane is counted with the integers. -/
def Lane.carried (lane : Lane) : ValType := if lane.isFloat then .f32 else .i32

@[simp] theorem Lane.carried_int : Lane.int.carried = .i32 := rfl

@[simp] theorem Lane.carried_bool : Lane.bool.carried = .i32 := rfl

@[simp] theorem Lane.carried_float : Lane.float.carried = .f32 := rfl

theorem Lane.valType?_of_ne_void {lane : Lane} (h : lane ≠ .void) :
    lane.valType? = some lane.carried := by
  cases lane <;> simp_all [valType?, carried, isFloat]

theorem Lane.carried_eq_iff {a b : Lane} : a.carried = b.carried ↔ a.isFloat = b.isFloat := by
  cases a <;> cases b <;> simp [carried, isFloat]

@[simp] theorem Ty.valType_eq (t : Ty) : t.valType = t.lane.carried := by
  cases t with
  | scalar s => cases s <;> rfl
  | _ => rfl

/-- What the names in code are declared as. A global is declared with its mutability. -/
structure StackContext where
  locals : String → Option ValType
  globals : String → Option (ValType × Bool)
  functions : String → Option Wat.FuncType

/-! ## The test -/

/-- What a float operator leaves. -/
def FloatOp.result : FloatOp → ValType
  | .add => .f32
  | .sub => .f32
  | .mul => .f32
  | .div => .f32
  | _ => .i32

namespace StackContext

variable (Γ : StackContext)

/-- The operands that an instruction takes off the stack and the results that it leaves, both from
the top. -/
def type? : Instr → Option (List ValType × List ValType)
  | .intConst _ => some ([], [.i32])
  | .floatConst _ => some ([], [.f32])
  | .intBinary _ => some ([.i32, .i32], [.i32])
  | .floatBinary op => some ([.f32, .f32], [op.result])
  | .intEqz => some ([.i32], [.i32])
  | .floatNeg => some ([.f32], [.f32])
  | .floatOfInt => some ([.i32], [.f32])
  | .intOfFloat => some ([.f32], [.i32])
  | .load s _ => some ([.i32], [s.lane.carried])
  | .store s _ => some ([s.lane.carried, .i32], [])
  | .localGet name => (Γ.locals name).map fun t => ([], [t])
  | .localSet name => (Γ.locals name).map fun t => ([t], [])
  | .localTee name => (Γ.locals name).map fun t => ([t], [t])
  | .globalGet name => (Γ.globals name).map fun g => ([], [g.1])
  | .globalSet name =>
    match Γ.globals name with
    | some (t, true) => some ([t], [])
    | _ => none
  | .call name => (Γ.functions name).map fun f => (f.params.reverse, f.result.toList)
  | _ => none

/-- Takes operands off the stack. -/
def pop : List ValType → List ValType → Option (List ValType)
  | [], stack => some stack
  | _ :: _, [] => none
  | t :: ts, u :: stack => if t = u then pop ts stack else none

/-- One instruction. A value of any type can be dropped. -/
def step (i : Instr) (stack : List ValType) : Option (List ValType) :=
  match i with
  | .drop =>
    match stack with
    | [] => none
    | _ :: stack => some stack
  | i => (Γ.type? i).bind fun t => (pop t.1 stack).map (t.2 ++ ·)

@[simp] theorem step_intConst (n : Int) (stack : List ValType) :
    Γ.step (.intConst n) stack = some (.i32 :: stack) := rfl

@[simp] theorem step_floatConst (x : FloatLiteral) (stack : List ValType) :
    Γ.step (.floatConst x) stack = some (.f32 :: stack) := rfl

@[simp] theorem step_intBinary (op : IntOp) (stack : List ValType) :
    Γ.step (.intBinary op) (.i32 :: .i32 :: stack) = some (.i32 :: stack) := rfl

@[simp] theorem step_floatBinary (op : FloatOp) (stack : List ValType) :
    Γ.step (.floatBinary op) (.f32 :: .f32 :: stack) = some (op.result :: stack) := rfl

@[simp] theorem step_drop (t : ValType) (stack : List ValType) :
    Γ.step .drop (t :: stack) = some stack := rfl

/-- The types that code leaves on a stack of these types. -/
def check : Code → List ValType → Option (List ValType)
  | .nil, stack => some stack
  | .instr i rest, stack => (Γ.step i stack).bind (check rest)
  | .choose thenCode elseCode rest, .i32 :: stack =>
    if check thenCode [] = some [.i32] ∧ check elseCode [] = some [.i32] then
      check rest (.i32 :: stack)
    else none
  | .choose _ _ _, _ => none

theorem check_append (a b : Code) (stack : List ValType) :
    Γ.check (a ++ b) stack = (Γ.check a stack).bind (Γ.check b) := by
  have happ : ∀ c d : Code, c ++ d = c.append d := fun _ _ => rfl
  induction a generalizing stack with
  | nil => rfl
  | instr i rest ih =>
    simp only [happ, Code.append, check] at ih ⊢
    cases Γ.step i stack with
    | none => rfl
    | some stack => exact ih stack
  | choose thenCode elseCode rest _ _ ih =>
    simp only [happ, Code.append] at ih ⊢
    match stack with
    | .i32 :: stack =>
      simp only [check]
      split
      · exact ih _
      · rfl
    | [] => rfl
    | .f32 :: _ => rfl

@[simp] theorem check_nil (stack : List ValType) : Γ.check .nil stack = some stack := rfl

@[simp] theorem check_one (i : Instr) (stack : List ValType) :
    Γ.check (.one i) stack = Γ.step i stack := by
  simp [Code.one, check]

@[simp] theorem check_ofList_nil (stack : List ValType) :
    Γ.check (.ofList []) stack = some stack := rfl

@[simp] theorem check_ofList_cons (i : Instr) (rest : List Instr) (stack : List ValType) :
    Γ.check (.ofList (i :: rest)) stack = (Γ.step i stack).bind (Γ.check (.ofList rest)) := rfl

/-! ## Code that leaves one value -/

/-- Whatever is on the stack, the code leaves a value of this type on top of it; or, without a type,
it is not accepted. -/
def Leaves (code : Code) (t : Option ValType) : Prop :=
  ∀ stack, Γ.check code stack = t.map (· :: stack)

variable {Γ}

theorem Leaves.check_empty_iff {code : Code} {t : Option ValType} (h : Γ.Leaves code t)
    (u : ValType) : Γ.check code [] = some [u] ↔ t = some u := by
  rw [h []]
  cases t <;> simp

/-- Code may be followed by whatever works on the value that it leaves. -/
theorem Leaves.append {a b : Code} {t u : Option ValType} (h : Γ.Leaves a t)
    (hb : ∀ stack, (t.map (· :: stack)).bind (Γ.check b) = u.map (· :: stack)) :
    Γ.Leaves (a ++ b) u := by
  intro stack
  rw [Γ.check_append, h stack, hb]

end StackContext

end WasmBackend
