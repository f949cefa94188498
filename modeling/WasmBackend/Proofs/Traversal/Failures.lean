import WasmBackend.Proofs.Traversal.Statements

/-!
# How making code can fail

Code is made after imports have been resolved and literals have been placed. What can still go wrong
is about code (`CompileError.ofCode`): names that mean nothing, references that dangle, things that
are not implemented. The one exception is a literal without a place. So if every literal that can be
come to has one (`ModuleInfo.Supplied`), all failures are about code
(`Lower.lowerModule_failsInCode`).

Nothing is asked of the arena: a dangling reference is a failure like any other. That an arena is
like itself in this sense is all there is to add to the traversals.
-/

namespace WasmBackend

namespace Lower

variable {E : CompileError → Prop}

theorem checkResolved_alike (hE : CompileError.Admits CompileError.ofCode E) (info : ModuleInfo) :
    (checkResolved info).AgreesIn E (checkResolved info) := by
  unfold checkResolved
  induction info.imports.values with
  | nil => exact .ok _
  | cons i rest ih =>
    exact ((i.resolved_alike hE).map _).bind fun _ _ => ih

theorem globalDecls_alike (hE : CompileError.Admits CompileError.ofCode E) (info : ModuleInfo)
    (arena : Arena) : (globalDecls info arena).AgreesIn E (globalDecls info arena) := by
  refine (Compiled.AgreesIn.mapM fun entry _ => ?_).bind fun _ _ => .ok _
  obtain ⟨name, g⟩ := entry
  dsimp only
  unfold globalDecl?
  split
  · split
    · exact .ok _
    · exact .error (hE _ rfl)
  · split
    · exact .ok _
    · exact .ok _

theorem lowerModule_alike {info : ModuleInfo} {arena : Arena} {contains : StmtId → Prop}
    {reached : ExprId → Prop} (h : info.Alike arena arena E contains reached)
    (hfunctions : ∀ e ∈ info.functions.entries, contains e.2.decl) (memory : Wat.MemoryImport) :
    EmitM.AgreesIn E (lowerModule memory arena info) (lowerModule memory arena info) := by
  have hE := (h.scope none).admits
  refine (EmitM.ofCompiled_alike (checkResolved_alike hE info)).bind fun _ => ?_
  refine (EmitM.ofCompiled_alike (globalDecls_alike hE info arena)).bind fun _ => ?_
  refine EStateM.AgreesIn.bind (.mapM fun e he => ?_) fun _ => .pure _
  exact lowerFunction_alike h e.1 (hfunctions e he)

end Lower

/-- Whatever can be come to from these expressions is one of them, and every literal among them has
a place. -/
structure Scope.Supplied (sc : Scope) (reached : ExprId → Prop) : Prop where
  child : ∀ id e child, reached id → sc.arena.expr? id = some e → child ∈ e.children →
    reached child
  literal : ∀ id e, reached id → sc.arena.expr? id = some e → e.isDataLiteral = true →
    (sc.info.literals.get? id).isSome

/-- The statements and expressions that can be come to in the arena, however the frame is: closed
under going down, with a place for every literal. -/
structure ModuleInfo.Supplied (info : ModuleInfo) (arena : Arena) (contains : StmtId → Prop)
    (reached : ExprId → Prop) : Prop where
  scope : ∀ frame, Scope.Supplied ⟨info, arena, frame⟩ reached
  stmt : ∀ id s child, contains id → arena.stmt? id = some s → child ∈ s.stmtChildren →
    contains child
  leaf : ∀ id s e, contains id → arena.stmt? id = some s → e ∈ s.exprChildren → reached e

/-- From every state, failures are about code. -/
def EStateM.FailsInCode {ε σ α : Type} (cause : ε → CompileError) (x : EStateM ε σ α) : Prop :=
  ∀ s e s', x s = .error e s' → (cause e).ofCode = true

section

variable {info : ModuleInfo} {arena : Arena} {contains : StmtId → Prop} {reached : ExprId → Prop}
variable (h : info.Supplied arena contains reached)

theorem Scope.Supplied.alike {sc : Scope} (h : sc.Supplied reached) :
    sc.Alike sc.arena (fun e => e.ofCode = true) reached where
  same := fun _ _ => rfl
  child := h.child
  whole := .inl fun _ => rfl
  admits := CompileError.admits_self
  literal := fun id e hid he hliteral => .inl (h.literal id e hid he hliteral)

include h

theorem ModuleInfo.Supplied.alike :
    info.Alike arena arena (fun e => e.ofCode = true) contains reached where
  scope := fun frame => (h.scope frame).alike
  same := fun _ _ => rfl
  stmt := h.stmt
  leaf := h.leaf
  whole := .inl fun _ => rfl
  returns := fun _ _ => rfl
  neverFallsThrough := fun _ _ => rfl

namespace Lower

/-- If every literal has a place, then lowering a function fails for reasons of its code only. -/
theorem lowerFunction_failsInCode {name : String} {entry : FunctionEntry}
    (hentry : contains entry.decl) :
    EStateM.FailsInCode (fun e => e) (lowerFunction info arena name entry) :=
  fun s => (lowerFunction_alike h.alike name hentry s).2.1

/-- The same for a module, if its functions are among what can be come to. -/
theorem lowerModule_failsInCode
    (hfunctions : ∀ e ∈ info.functions.entries, contains e.2.decl) (memory : Wat.MemoryImport) :
    EStateM.FailsInCode (fun e => e) (lowerModule memory arena info) :=
  fun s => (lowerModule_alike h.alike hfunctions memory s).2.1

end Lower

end

end WasmBackend
