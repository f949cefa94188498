import WasmBackend.Proofs.Memory.Steady
import WasmBackend.Proofs.Stack.Declared
import WasmBackend.Proofs.Symbols.Declarations

/-!
# Members in two places

A member of a struct local lives twice: in a local of its own, and in memory. `b.m` reads the local
and `b->m` reads memory. Members are **in step** where the two agree (`InStep`).

A statement is an `Action` as far as members are concerned: it writes some locals, and gives some
members a value in both places. From these two and from what members read before and after, one can
tell whether members that were in step still are (`Effect.inStep_iff`), and the condition says where
this can go wrong (`Action.Faithful`):

* a value that is given to a member in both places must fit the member;
* every other member must read in memory what it read before, whatever was stored and wherever the
  struct variable leads now.

That code has such effects is left to `Memory.Statements`.
-/

namespace WasmBackend

open Compiled Lower

/-! ## Members that have a local -/

/-- `x` is a visible local of a struct type, there is a visible local for its member, and memory
keeps the member as this scalar at this offset. -/
def Frame.Mirrors (info : ModuleInfo) (f : Frame) (x member : String) (s : Scalar) (offset : Nat) :
    Prop :=
  (f.visibleLocal? (Scope.flattenedName x member)).isSome ∧
  ∃ u structName layout m, f.visibleLocal? x = some u ∧ u.ty.structName? = some structName ∧
    info.structLayout structName = .ok layout ∧ layout.member member = .ok m ∧
    m.ty.storage? = some s ∧ m.offset = offset

namespace MachineState

/-- What the local of a member holds. -/
def held (state : MachineState) (x member : String) : Word :=
  state.registers (.localVar (Scope.flattenedName x member))

/-- What is read through the struct variable at an offset. -/
def reads (state : MachineState) (x : String) (s : Scalar) (offset : Nat) : Except Fault Word :=
  state.memory.load s (state.registers (.localVar x)) offset

end MachineState

/-- The value that code leaves on an empty stack. -/
def Code.yields (env : Environment) (code : Code) (state : MachineState) : Except Fault Word :=
  (code.execute env [] state).bind fun
    | ([w], _) => .ok w
    | _ => .error .stuck

/-- Wherever `x.member` and `x->member` may be written for a struct local with a local for the
member, their code yields the same. -/
def InStep (env : Environment) (info : ModuleInfo) (f : Frame) (state : MachineState) : Prop :=
  ∀ (arena : Arena) (base : ExprId) (x member : String) (direct indirect : Code),
    (f.visibleLocal? x).isSome → (f.visibleLocal? (Scope.flattenedName x member)).isSome →
    arena.expr? base = some (.ident x) →
    Lower.member ⟨info, arena, some f⟩ base member true = .ok direct →
    Lower.member ⟨info, arena, some f⟩ base member false = .ok indirect →
    direct.yields env state = indirect.yields env state

section Codes

variable {env : Environment} {info : ModuleInfo} {f : Frame} (hf : f.WellFormed)
variable {arena : Arena} {base : ExprId} {x member : String}

theorem Scope.lookup_visible {u : Variable} (h : f.visibleLocal? x = some u) :
    Scope.lookup ⟨info, arena, some f⟩ x = .ok u := by
  simp [Scope.lookup, Scope.lookupLocal?, h]

include hf

/-- A visible local is the local of its name. -/
theorem visible_eq {u : Variable} (h : f.visibleLocal? x = some u) :
    u.name = x ∧ u.scope = .localVar := by
  unfold Frame.visibleLocal? at h
  split at h
  · cases h
  · exact hf.locals x u h

theorem get_visible {u : Variable} (h : f.visibleLocal? x = some u) :
    Instr.get u = .localGet x := by
  obtain ⟨hname, hscope⟩ := visible_eq hf h
  rw [Instr.get, hscope, hname]

theorem member_direct (hbase : arena.expr? base = some (.ident x))
    (h : (f.visibleLocal? (Scope.flattenedName x member)).isSome) :
    Lower.member ⟨info, arena, some f⟩ base member true =
      .ok (.one (.localGet (Scope.flattenedName x member))) := by
  obtain ⟨v, hv⟩ := Option.isSome_iff_exists.mp h
  have hflattened : Scope.flattenedMember? ⟨info, arena, some f⟩ base member = some v := by
    simp [Scope.flattenedMember?, hbase, Scope.flattened?, hv]
  simp only [Lower.member, hflattened, ↓reduceIte, get_visible hf hv]

/-- The place of a mirrored member is where `Mirrors` says. -/
theorem Frame.Mirrors.memberPlace {s : Scalar} {offset : Nat} (h : f.Mirrors info x member s offset)
    (hbase : arena.expr? base = some (.ident x)) :
    Lower.memberPlace ⟨info, arena, some f⟩ base member = .ok ⟨.one (.localGet x), s, offset⟩ := by
  obtain ⟨-, u, structName, layout, m, hu, hstruct, hlayout, hm, hs, rfl⟩ := h
  have hexpr : Scope.expr ⟨info, arena, some f⟩ base = .ok (.ident x) :=
    Scope.expr_eq_ok.mpr hbase
  have hmember : Scope.memberOf ⟨info, arena, some f⟩ base member = .ok (u, m) := by
    simp only [Scope.memberOf, hexpr, ok_bind, Scope.lookup_visible hu, hstruct, hlayout,
      hm]
    rfl
  simp only [Lower.memberPlace, hmember, ok_bind, hs, get_visible hf hu]
  rfl

omit hf in
/-- A member that can be reached through memory, and has a local, is mirrored. -/
theorem mirrors_of_memberPlace {p : Place} {u : Variable} (hu : f.visibleLocal? x = some u)
    (hlocal : (f.visibleLocal? (Scope.flattenedName x member)).isSome)
    (hbase : arena.expr? base = some (.ident x))
    (hp : Lower.memberPlace ⟨info, arena, some f⟩ base member = .ok p) :
    f.Mirrors info x member p.scalar p.offset := by
  obtain ⟨v, m, s, hmember, hs, rfl⟩ := memberPlace_ok hp
  obtain ⟨x', structName, layout, hbase', hv, hstruct, hlayout, hm⟩ := Scope.memberOf_ok hmember
  have hx : x = x' := by
    have heq := hbase.symm.trans hbase'
    simpa using heq
  subst hx
  rw [Scope.lookup_visible hu] at hv
  cases hv
  exact ⟨hlocal, u, structName, layout, m, hu, hstruct, hlayout, hm, hs, rfl⟩

omit hf in
theorem Code.yields_localGet (name : String) (state : MachineState) :
    (Code.one (.localGet name)).yields env state = .ok (state.registers (.localVar name)) := by
  simp only [Code.yields, Code.execute_one, Instr.perform_localGet]
  rfl

omit hf in
theorem Code.yields_load (x : String) (s : Scalar) (offset : Nat) (state : MachineState) :
    (Place.load ⟨.one (.localGet x), s, offset⟩).yields env state = state.reads x s offset := by
  simp only [Code.yields, Place.load, Code.execute_append, Code.execute_one,
    Instr.perform_localGet, MachineState.reads]
  simp only [Except.bind, Instr.perform]
  cases state.memory.load s (state.registers (.localVar x)) offset <;> rfl

/-- In step means that what memory reads for a member is what its local holds. -/
theorem inStep_iff {state : MachineState} : InStep env info f state ↔
    ∀ x member s offset, f.Mirrors info x member s offset →
      state.reads x s offset = .ok (state.held x member) := by
  constructor
  · intro h x member s offset hmirrors
    -- Any arena with the identifier in it will do.
    let arena : Arena := { exprs := #[.ident x] }
    have hbase : arena.expr? 0 = some (.ident x) := rfl
    obtain ⟨hlocal, u, _, _, _, hu, _⟩ := id hmirrors
    have hdirect : Lower.member ⟨info, arena, some f⟩ 0 member true = .ok _ :=
      member_direct hf hbase hlocal
    have hindirect : Lower.member ⟨info, arena, some f⟩ 0 member false =
        .ok (Place.load ⟨.one (.localGet x), s, offset⟩) := by
      simp only [Lower.member, Bool.false_eq_true, ↓reduceIte, hmirrors.memberPlace hf hbase]
      rfl
    have heq := h arena 0 x member _ _ (by simp [hu]) hlocal hbase hdirect hindirect
    rw [Code.yields_localGet, Code.yields_load] at heq
    exact heq.symm
  · intro h arena base x member direct indirect hx hlocal hbase hdirect hindirect
    obtain ⟨u, hu⟩ := Option.isSome_iff_exists.mp hx
    rw [member_direct hf hbase hlocal] at hdirect
    cases hdirect
    simp only [Lower.member, Bool.false_eq_true, ↓reduceIte, bind_ok,
      pure_ok] at hindirect
    obtain ⟨⟨address, s, offset⟩, hp, rfl⟩ := hindirect
    have hmirrors := mirrors_of_memberPlace hu hlocal hbase hp
    rw [hmirrors.memberPlace hf hbase] at hp
    cases hp
    rw [Code.yields_localGet, Code.yields_load, h x member _ _ hmirrors]
    rfl

end Codes

/-! ## Actions -/

/-- What a statement is to members. -/
inductive Action where
  /-- `let x = S { … }`, for a struct with this layout -/
  | bind (x : String) (layout : StructLayout)
  /-- `x.member = …` -/
  | setMember (x member : String)
  /-- `x->member = …` -/
  | setPointee (x member : String)
  /-- `x = …` -/
  | setVariable (x : String)

theorem Ty.storage?_size {ty : Ty} {s : Scalar} (h : ty.storage? = some s) : s.size = ty.size := by
  cases ty <;> cases h <;> rfl

namespace Action

/-- The locals that are written. -/
def Writes : Action → String → Prop
  | bind x layout, name =>
    name = x ∨ ∃ member ∈ layout.members.keys, name = Scope.flattenedName x member
  | setMember x member, name => name = Scope.flattenedName x member
  | setPointee _ _, _ => False
  | setVariable x, name => name = x

/-- The members that are given a value in both places. -/
def Gives : Action → String → String → Scalar → Nat → Prop
  | bind x layout, y, k, s, offset => y = x ∧ layout.Spread ∧
    ∃ m, layout.members.get? k = some m ∧ m.ty.storage? = some s ∧ m.offset = offset
  | setMember x member, y, k, _, _ => y = x ∧ k = member
  | setPointee _ _, _, _, _, _ => False
  | setVariable _, _, _, _, _ => False

/-- What has to hold of a statement so that members which were in step before it are in step after
it. -/
structure Faithful (info : ModuleInfo) (action : Action) (f : Frame) (before after : MachineState) :
    Prop where
  /-- A given value survives being stored. -/
  fits : ∀ x member s offset, f.Mirrors info x member s offset →
    action.Gives x member s offset → s.Fits (after.held x member)
  /-- Where the local or the struct variable was written for another reason, memory agrees with
  it. -/
  agrees : ∀ x member s offset, f.Mirrors info x member s offset →
    ¬ action.Gives x member s offset →
    action.Writes x ∨ action.Writes (Scope.flattenedName x member) →
    after.reads x s offset = .ok (after.held x member)
  /-- Every other member reads what it read before. -/
  undisturbed : ∀ x member s offset, f.Mirrors info x member s offset →
    ¬ action.Writes x → ¬ action.Writes (Scope.flattenedName x member) →
    after.reads x s offset = before.reads x s offset

/-- What a statement does: it writes the locals it says and no others, makes no others visible, and
the members that it gives a value to read this value as far as it fits. -/
structure Effect (info : ModuleInfo) (action : Action) (f f' : Frame)
    (before after : MachineState) : Prop where
  kept : ∀ name, ¬ action.Writes name →
    after.registers (.localVar name) = before.registers (.localVar name)
  visible : ∀ name, ¬ action.Writes name → f'.visibleLocal? name = f.visibleLocal? name
  given : ∀ x member s offset, f'.Mirrors info x member s offset →
    action.Gives x member s offset →
    after.reads x s offset = .ok (s.narrow (after.held x member))

/-- A statement keeps members in step exactly if it is faithful. -/
theorem Effect.inStep_iff {env : Environment} {info : ModuleInfo} {action : Action} {f f' : Frame}
    {before after : MachineState} (h : action.Effect info f f' before after) (hf : f.WellFormed)
    (hf' : f'.WellFormed) (hstep : InStep env info f before) :
    InStep env info f' after ↔ action.Faithful info f' before after := by
  rw [WasmBackend.inStep_iff hf] at hstep
  rw [WasmBackend.inStep_iff hf']
  -- A member of which neither place was written was there before, and was in step.
  have hold : ∀ x member s offset, f'.Mirrors info x member s offset → ¬ action.Writes x →
      ¬ action.Writes (Scope.flattenedName x member) →
      before.reads x s offset = .ok (after.held x member) := by
    intro x member s offset hmirrors hx hmember
    unfold MachineState.held
    rw [h.kept _ hmember]
    apply hstep
    unfold Frame.Mirrors at hmirrors ⊢
    rwa [h.visible _ hx, h.visible _ hmember] at hmirrors
  constructor
  · intro hafter
    refine ⟨?_, ?_, ?_⟩
    · intro x member s offset hmirrors hgives
      have hread := hafter x member s offset hmirrors
      rw [h.given x member s offset hmirrors hgives] at hread
      exact Except.ok.inj hread
    · intro x member s offset hmirrors _ _
      exact hafter x member s offset hmirrors
    · intro x member s offset hmirrors hx hmember
      rw [hafter x member s offset hmirrors, hold x member s offset hmirrors hx hmember]
  · intro hfaithful x member s offset hmirrors
    by_cases hgives : action.Gives x member s offset
    · rw [h.given x member s offset hmirrors hgives]
      exact congrArg Except.ok (hfaithful.fits x member s offset hmirrors hgives)
    · by_cases hwrites : action.Writes x ∨ action.Writes (Scope.flattenedName x member)
      · exact hfaithful.agrees x member s offset hmirrors hgives hwrites
      · obtain ⟨hx, hmember⟩ := not_or.mp hwrites
        rw [hfaithful.undisturbed x member s offset hmirrors hx hmember]
        exact hold x member s offset hmirrors hx hmember

end Action

end WasmBackend
