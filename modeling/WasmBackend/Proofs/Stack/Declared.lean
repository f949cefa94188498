import WasmBackend.Proofs.Modules.Parts
import WasmBackend.Proofs.Stack.Validation
import WasmBackend.Proofs.Traversal.Statements

/-!
# What variables are declared as

Code speaks of variables by name, and validation reads their types off the declarations of the
module (`Scope.declared`). That the two fit is a property of frames: every variable stands under its
own name, and no local has the name of a parameter (`Frame.WellFormed`). The frame of a function is
built that way, and lowering does not touch that part of it.

One thing does not fit in general. The *type* of constant data is that of its content, but what a
name of it pushes is the address: see `Variable.heldLane`.
-/

namespace WasmBackend

open Compiled Lower

/-! ## Frames -/

/-- Variables stand under their own names, and a name means one thing. -/
structure Frame.WellFormed (f : Frame) : Prop where
  params : ∀ name v, f.params.get? name = some v → v.name = name ∧ v.scope = .param
  locals : ∀ name v, f.locals.get? name = some v → v.name = name ∧ v.scope = .localVar
  disjoint : ∀ name, f.params.contains name = true → f.locals.get? name = none

theorem Frame.WellFormed.addLocal {f : Frame} (hf : f.WellFormed) (name : String) (ty : Ty)
    (hparam : f.params.contains name = false) :
    { f with locals := f.locals.set name ⟨name, .localVar, ty⟩ }.WellFormed where
  params := hf.params
  locals := by
    intro name' v hv
    rw [Table.get?_set] at hv
    split at hv
    · next heq => cases hv; exact ⟨heq, rfl⟩
    · exact hf.locals name' v hv
  disjoint := by
    intro name' hname'
    rw [Table.get?_set]
    split
    · next heq => rw [← heq, hparam] at hname'; cases hname'
    · exact hf.disjoint name' hname'

/-- The frame of a function is well-formed. -/
theorem functionFrame_wellFormed {name : String} {decl : FunctionDecl} {f : Frame}
    (h : functionFrame name decl = .ok f) : f.WellFormed := by
  obtain ⟨rfl, -⟩ := functionFrame_eq h
  refine ⟨fun name v hv => ?_, by rintro _ _ ⟨⟩, fun _ _ => rfl⟩
  obtain ⟨p, -, hp⟩ := List.mem_map.mp (Table.mem_of_get? hv)
  cases hp
  exact ⟨rfl, rfl⟩

/-- The body of a function is lowered in a well-formed frame. Lowering changes only which locals are
pending and which loops are open. -/
theorem bodyFrame_wellFormed {name : String} {decl : FunctionDecl} {f f' : Frame}
    {info : ModuleInfo} {arena : Arena} (h : functionFrame name decl = .ok f)
    (hlocals : declareLocals info arena decl.body f = .ok () f') (pending : List String)
    (loops : List LoopLabels) : { f' with pending, loops }.WellFormed := by
  have hf' : f'.WellFormed := by
    have hafter : EStateM.Passing Frame.WellFormed f
        (EStateM.endState (declareLocals info arena decl.body) f) :=
      (declareLocals_alike (info.alike_self arena)
        (fun _ name ty hparam hf => hf.addLocal name ty hparam) trivial f).2.2
    rw [EStateM.endState_of_ok hlocals] at hafter
    exact hafter (functionFrame_wellFormed h)
  exact ⟨hf'.params, hf'.locals, hf'.disjoint⟩

/-! ## What names mean -/

/-- What a name can mean in a function: a variable of that name, by the table that it is from. -/
inductive Frame.Means (f : Frame) (info : ModuleInfo) (name : String) : Variable → Prop
  | localVar {ty : Ty} (h : f.locals.get? name = some ⟨name, .localVar, ty⟩) :
      Means f info name ⟨name, .localVar, ty⟩
  | param {ty : Ty} (h : f.params.get? name = some ⟨name, .param, ty⟩) :
      Means f info name ⟨name, .param, ty⟩
  | register {g : GlobalEntry} (hg : info.globals.get? name = some g) (hs : g.storage = .register) :
      Means f info name ⟨name, .global, g.ty⟩
  | memory {g : GlobalEntry} {address : Nat} (hg : info.globals.get? name = some g)
      (hs : g.storage = .memory address) : Means f info name ⟨name, .memory address, g.ty⟩
  | imported {i : ImportEntry} {ty : Ty} {inMemory : Bool} (hg : info.globals.get? name = none)
      (hi : info.imports.get? name = some i) (hd : i.descriptor = some (.global ty inMemory)) :
      Means f info name ⟨name, if inMemory then .importedMemory else .global, ty⟩

theorem Frame.WellFormed.means {f : Frame} (hf : f.WellFormed) {info : ModuleInfo} {arena : Arena}
    {name : String} {v : Variable} (h : Scope.lookup ⟨info, arena, some f⟩ name = .ok v) :
    f.Means info name v := by
  unfold Scope.lookup Scope.lookupLocal? Frame.visibleLocal? at h
  dsimp only at h
  split at h
  · next hlocal =>
    cases h
    split at hlocal
    · next hvisible =>
      cases hlocal
      split at hvisible
      · cases hvisible
      · obtain ⟨name, scope, ty⟩ := v
        obtain ⟨rfl, rfl⟩ := hf.locals _ _ hvisible
        exact .localVar hvisible
    · obtain ⟨name, scope, ty⟩ := v
      obtain ⟨rfl, rfl⟩ := hf.params _ _ hlocal
      exact .param hlocal
  unfold Scope.lookupGlobal at h
  split at h
  · next g hg =>
    split at h
    · next hs =>
      cases h
      exact .register hg hs
    · next address hs =>
      cases h
      exact .memory hg hs
  · next hg =>
    split at h
    · cases h
    · next i hi =>
      obtain ⟨d, hd, h⟩ := bind_ok.mp h
      cases d with
      | global ty inMemory =>
        cases h
        exact .imported hg hi (ImportEntry.resolved_ok hd)
      | _ => cases h

/-! ## Declarations -/

/-- The declarations of the module and of the function. -/
def Scope.declared (sc : Scope) : StackContext where
  locals name := sc.frame.bind fun f =>
    Table.find name (variableTypes f.params ++ variableTypes f.locals)
  globals name :=
    match sc.info.globals.get? name with
    | some g =>
      match g.storage with
      | .register => some (g.ty.valType, true)
      | .memory _ => if g.exported then some (.i32, false) else none
    | none =>
      match (sc.info.imports.get? name).bind (importDecl? name) with
      | some ⟨_, _, _, .global ty isMutable⟩ => some (ty, isMutable)
      | _ => none
  functions name := (signatureOf sc name).toOption.map funcType

/-- The lane in which a name pushes its value. Constant data is known by its address, whatever the
type of its content. -/
def Variable.heldLane (v : Variable) : Lane :=
  match v.scope with
  | .memory _ => .int
  | .importedMemory => .int
  | _ => v.ty.lane

/-- Code may read and write the variable as it is declared. -/
structure Scope.Declares (sc : Scope) (v : Variable) : Prop where
  get : ∀ stack, sc.declared.step (.get v) stack = some (v.heldLane.carried :: stack)
  set : ∀ i, Instr.set v = .ok i → v.heldLane = v.ty.lane ∧ ∀ t stack,
    sc.declared.step i (t :: stack) = if v.ty.lane.carried = t then some stack else none
  tee : v.isLocal = true → ∀ t stack, sc.declared.step (.localTee v.name) (t :: stack) =
    if v.ty.lane.carried = t then some (t :: stack) else none

/-- Every name may be read and written as what it means is declared, and the local of a member is
what its name means. -/
structure Scope.WellDeclared (sc : Scope) : Prop where
  lookup : ∀ name v, sc.lookup name = .ok v → sc.Declares v
  flattened : ∀ base member v, sc.flattened? base member = some v →
    v.isLocal = true ∧ sc.lookup (flattenedName base member) = .ok v

theorem find_variableTypes (name : String) (t : Table String Variable) :
    Table.find name (variableTypes t) = (t.get? name).map fun v => v.ty.lane.carried := by
  simp only [variableTypes, Ty.valType_eq]
  exact Table.find_map name (fun v : Variable => v.ty.lane.carried) t.entries

section Lookup

variable {info : ModuleInfo} {arena : Arena} {f : Frame} (hf : f.WellFormed)
variable {name : String} {v : Variable}

theorem declared_param (h : f.params.get? name = some v) :
    (Scope.declared ⟨info, arena, some f⟩).locals name = some v.ty.lane.carried := by
  simp [Scope.declared, Table.find_append, find_variableTypes, h]

include hf in
theorem declared_local (h : f.locals.get? name = some v) :
    (Scope.declared ⟨info, arena, some f⟩).locals name = some v.ty.lane.carried := by
  have hparam : f.params.get? name = none := by
    rw [← Table.contains_eq_false]
    cases hc : f.params.contains name with
    | false => rfl
    | true => rw [hf.disjoint name hc] at h; cases h
  simp [Scope.declared, Table.find_append, find_variableTypes, hparam, h]

/-- A variable in a machine local. -/
theorem declares_of_local {sc : Scope} (hlocal : v.isLocal = true)
    (h : sc.declared.locals v.name = some v.ty.lane.carried) : sc.Declares v := by
  obtain ⟨name, scope, ty⟩ := v
  cases scope with
  | localVar | param =>
    refine ⟨fun stack => ?_, fun i hi => ⟨rfl, fun t stack => ?_⟩, fun _ t stack => ?_⟩
    · simp_all [Instr.get, StackContext.step, StackContext.type?, StackContext.pop,
        Variable.heldLane]
    · cases hi
      simp only [StackContext.step, StackContext.type?, h, Option.map_some, Option.bind_some,
        StackContext.pop]
      split <;> rfl
    · simp only [StackContext.step, StackContext.type?, h, Option.map_some, Option.bind_some,
        StackContext.pop]
      split
      · next heq => simp [heq]
      · rfl
  | _ => cases hlocal

/-- A variable in a machine global that may be written. -/
theorem declares_of_global {sc : Scope} {ty : Ty}
    (h : sc.declared.globals name = some (ty.lane.carried, true)) :
    sc.Declares ⟨name, .global, ty⟩ := by
  refine ⟨fun stack => ?_, fun i hi => ⟨rfl, fun t stack => ?_⟩, fun hl => nomatch hl⟩
  · simp_all [Instr.get, StackContext.step, StackContext.type?, StackContext.pop,
      Variable.heldLane]
  · cases hi
    simp only [StackContext.step, StackContext.type?, h, Option.bind_some, StackContext.pop]
    split <;> rfl

include hf

theorem lookup_declares (h : Scope.lookup ⟨info, arena, some f⟩ name = .ok v) :
    Scope.Declares ⟨info, arena, some f⟩ v := by
  cases hf.means h with
  | localVar hget => exact declares_of_local rfl (declared_local hf hget)
  | param hget => exact declares_of_local rfl (declared_param hget)
  | register hg hs => exact declares_of_global (by simp [Scope.declared, hg, hs])
  | memory hg hs => exact ⟨fun _ => rfl, fun _ hi => (by cases hi), fun hl => (by cases hl)⟩
  | @imported i ty inMemory hg hi hd =>
    cases inMemory with
    | false => exact declares_of_global (by simp [Scope.declared, hg, hi, importDecl?, hd])
    | true =>
      refine ⟨fun stack => ?_, fun _ hi => (by cases hi), fun hl => (by cases hl)⟩
      simp [Instr.get, StackContext.step, StackContext.type?, StackContext.pop, Scope.declared,
        hg, hi, importDecl?, hd, Variable.heldLane, Lane.carried, Lane.isFloat]

theorem flattened?_lookup {base member : String}
    (h : Scope.flattened? ⟨info, arena, some f⟩ base member = some v) :
    v.isLocal = true ∧
      Scope.lookup ⟨info, arena, some f⟩ (Scope.flattenedName base member) = .ok v := by
  have hvisible : f.visibleLocal? (Scope.flattenedName base member) = some v := h
  constructor
  · unfold Frame.visibleLocal? at hvisible
    split at hvisible
    · cases hvisible
    · simp [Variable.isLocal, (hf.locals _ v hvisible).2]
  · simp [Scope.lookup, Scope.lookupLocal?, hvisible]

/-- Whatever names mean is declared as code uses it. -/
theorem Frame.WellFormed.wellDeclared : Scope.WellDeclared ⟨info, arena, some f⟩ :=
  ⟨fun _ _ => lookup_declares hf, fun _ _ _ => flattened?_lookup hf⟩

end Lookup

end WasmBackend
