import WasmBackend.Proofs.Shapes

/-!
# What the code of expressions is made of

Lowered expressions name variables and functions only where a rule of lowering looked them up. So a
property of instructions holds of all lowered code as soon as it holds of the instructions that name
nothing and of those that a look-up in the scope gives (`Scope.Admits`). What a name has to be
declared as is a matter of the property.
-/

namespace WasmBackend

/-- Every instruction of the code satisfies `P`. -/
def Code.All (P : Instr → Prop) : Code → Prop
  | .nil => True
  | .instr i rest => P i ∧ rest.All P
  | .choose a b rest => a.All P ∧ b.All P ∧ rest.All P

namespace Code

variable {P : Instr → Prop}

@[simp] theorem all_append {a b : Code} : (a ++ b).All P ↔ a.All P ∧ b.All P := by
  show (a.append b).All P ↔ _
  induction a with
  | nil => simp [append, All]
  | instr i rest ih => simp [append, All, ih, and_assoc]
  | choose thenCode elseCode rest _ _ ih => simp [append, All, ih, and_assoc]

@[simp] theorem all_nil : Code.nil.All P := trivial

@[simp] theorem all_one {i : Instr} : (one i).All P ↔ P i := by
  simp [one, All]

@[simp] theorem all_ifElse {a b : Code} : (ifElse a b).All P ↔ a.All P ∧ b.All P := by
  simp [ifElse, All]

@[simp] theorem all_ofList {l : List Instr} : (ofList l).All P ↔ ∀ i ∈ l, P i := by
  induction l with
  | nil => simp [ofList]
  | cons i rest ih => simp [ofList, All, ih]

end Code

/-- The property holds of plain instructions and of whatever a look-up gives. -/
structure Scope.Admits (sc : Scope) (P : Instr → Prop) : Prop where
  plain : ∀ i, i.isPlain = true → P i
  get : ∀ name v, sc.lookup name = .ok v → P (.get v)
  set : ∀ name v i, sc.lookup name = .ok v → Instr.set v = .ok i → P i
  tee : ∀ name v, sc.lookup name = .ok v → v.isLocal = true → P (.localTee v.name)
  flattened : ∀ base member v, sc.flattened? base member = some v →
    P (.get v) ∧ P (.localTee v.name)
  call : ∀ callee s, Lower.signatureOf sc callee = .ok s → P (.call callee)

/-- What is admitted in every instruction is kept by every rule. -/
theorem Scope.Admits.composes {sc : Scope} {P : Instr → Prop} (hsc : sc.Admits P) :
    sc.Composes True (Code.All P) where
  const i hi _ := Code.all_one.mpr (hsc.plain i hi)
  get name v hv := Code.all_one.mpr (hsc.get name v hv)
  flattened base member v hv := Code.all_one.mpr (hsc.flattened base member v hv).1
  change a i hi ha := by simp [ha, hsc.plain i (Instr.isPlain_of_operands hi)]
  combine a b i hi ha hb := by simp [ha, hb, hsc.plain i (Instr.isPlain_of_operands hi)]
  ifElse a b c ha hb hc := by simp [ha, hb, hc]
  append _ a b ha hb := Code.all_append.mpr ⟨ha, hb⟩
  plain _ i hi := Code.all_one.mpr (hsc.plain i hi)
  set _ name v i hv hi := Code.all_one.mpr (hsc.set name v i hv hi)
  tee _ name v hv hlocal := Code.all_one.mpr (hsc.tee name v hv hlocal)
  teeFlattened _ base member v hv := Code.all_one.mpr (hsc.flattened base member v hv).2
  call _ callee s hs := Code.all_one.mpr (hsc.call callee s hs)

end WasmBackend
