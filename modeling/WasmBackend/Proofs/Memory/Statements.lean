import WasmBackend.Proofs.Memory.Members
import WasmBackend.Proofs.Scoping.Body

/-!
# What statements do to members

The code of a struct `let`, and of an assignment to a variable or a member, run on the machine with
memory. For each of them this gives the `Action.Effect` that it has: which locals it writes, and
that a `let` and `x.member = …` leave what they give in both places.

The values that are assigned are taken to be free of effects, so that whatever a statement does to
members, it does itself.
-/

namespace WasmBackend

open Compiled Lower

/-- The statement is this action, and the values in it have no effects. -/
inductive Arena.Acts (info : ModuleInfo) (arena : Arena) : StmtId → Action → Prop
  | bind {id : StmtId} {decl : LetDecl} {structName : String} {fields : List FieldInit}
      {layout : StructLayout} (hs : arena.stmt? id = some (.letting decl))
      (hinit : arena.expr? decl.init = some (.struct structName fields))
      (hlayout : info.structLayout structName = .ok layout)
      (hvalues : ∀ field ∈ fields, arena.EffectFree field.value) :
      arena.Acts info id (.bind decl.name layout)
  | setMember {id : StmtId} {e target value base : ExprId} {x member : String}
      (hs : arena.stmt? id = some (.expr e)) (he : arena.expr? e = some (.assign target value))
      (htarget : arena.expr? target = some (.member base member))
      (hbase : arena.expr? base = some (.ident x)) (hvalue : arena.EffectFree value) :
      arena.Acts info id (.setMember x member)
  | setPointee {id : StmtId} {e target value base : ExprId} {x member : String}
      (hs : arena.stmt? id = some (.expr e)) (he : arena.expr? e = some (.assign target value))
      (htarget : arena.expr? target = some (.pointerMember base member))
      (hbase : arena.expr? base = some (.ident x)) (hvalue : arena.EffectFree value) :
      arena.Acts info id (.setPointee x member)
  | setVariable {id : StmtId} {e target value : ExprId} {x : String}
      (hs : arena.stmt? id = some (.expr e)) (he : arena.expr? e = some (.assign target value))
      (htarget : arena.expr? target = some (.ident x)) (hvalue : arena.EffectFree value) :
      arena.Acts info id (.setVariable x)

/-! ## Names -/

theorem Scope.flattenedName_ne (x member : String) : Scope.flattenedName x member ≠ x := by
  intro h
  have hlength := congrArg String.length h
  simp only [Scope.flattenedName, String.length_append] at hlength
  have hone : "_".length = 1 := by decide
  omega

theorem Scope.flattenedName_inj {x member member' : String}
    (h : Scope.flattenedName x member = Scope.flattenedName x member') : member = member' := by
  unfold Scope.flattenedName at h
  simpa using h

theorem Frame.visibleLocal?_revealAll {f : Frame} {names : List String} {name : String}
    (h : name ∉ names) : (f.revealAll names).visibleLocal? name = f.visibleLocal? name := by
  induction names generalizing f with
  | nil => rfl
  | cons first rest ih =>
    obtain ⟨hne, hrest⟩ := not_or.mp (mt List.mem_cons.mpr h)
    show ((f.reveal first).revealAll rest).visibleLocal? name = _
    rw [ih hrest]
    simp [visibleLocal?, reveal, hne]

namespace MachineState

@[simp] theorem setLocal_self (state : MachineState) (name : String) (w : Word) :
    (state.setLocal name w).registers (.localVar name) = w := if_pos rfl

theorem setLocal_of_ne (state : MachineState) {name name' : String} (w : Word) (h : name' ≠ name) :
    (state.setLocal name w).registers (.localVar name') = state.registers (.localVar name') :=
  if_neg (by simpa using h)

/-- A member that was put into its local and stored reads what the local holds, as far as it fits.
The struct variable is another local, so it still leads to the same place. -/
theorem reads_given {state : MachineState} {x member : String} {s : Scalar} {offset : Nat}
    {w : Word} {m : Memory}
    (h : state.memory.store s (state.registers (.localVar x)) offset w = .ok m) :
    reads { state.setLocal (Scope.flattenedName x member) w with memory := m } x s offset =
      .ok (s.narrow
        (held { state.setLocal (Scope.flattenedName x member) w with memory := m } x member)) := by
  have hx : x ≠ Scope.flattenedName x member := (Scope.flattenedName_ne x member).symm
  simp only [reads, held, setLocal_self, state.setLocal_of_ne w hx]
  exact Memory.load_store h

end MachineState

/-- Setting a variable leaves the locals of other names alone. -/
theorem set_kept {env : Environment} {info : ModuleInfo} {arena : Arena} {f : Frame}
    (hf : f.WellFormed) {x name : String} {v : Variable} {i : Instr} {w : Word}
    {before after : MachineState} (hv : Scope.lookup ⟨info, arena, some f⟩ x = .ok v)
    (hset : Instr.set v = .ok i) (hrun : i.perform env [w] before = .ok ([], after))
    (hname : name ≠ x) : after.registers (.localVar name) = before.registers (.localVar name) := by
  have hx : v.name = x := by cases hf.means hv <;> rfl
  unfold Instr.set at hset
  split at hset <;> cases hset
  · rw [Instr.perform_localSet] at hrun
    cases hrun
    exact before.setLocal_of_ne w (hx ▸ hname)
  · rw [Instr.perform_localSet] at hrun
    cases hrun
    exact before.setLocal_of_ne w (hx ▸ hname)
  · rw [Instr.perform_globalSet] at hrun
    cases hrun
    simp [MachineState.setGlobal, Store.set]

/-! ## Pieces of code -/

section Pieces

variable {env : Environment} {a b : Code} {state : MachineState} {stack : List Word}

/-- Two values in a row, and what follows them. -/
theorem Code.Steady.execute_both (ha : a.Steady env) (hb : b.Steady env) {c : Code}
    {r : List Word × MachineState} (h : (a ++ b ++ c).execute env stack state = .ok r) :
    ∃ base w, a.yields env state = .ok base ∧
      c.execute env (w :: base :: stack) state = .ok r := by
  obtain ⟨first, hfirst⟩ := ha
  obtain ⟨second, hsecond⟩ := hb
  rw [Code.execute_append, Code.execute_append, hfirst stack state] at h
  obtain ⟨_, hboth, h⟩ := ExecResult.bind_ok.mp h
  obtain ⟨_, hpushed, hboth⟩ := ExecResult.bind_ok.mp hboth
  obtain ⟨base, hbase, rfl⟩ := ExecResult.map_ok.mp hpushed
  rw [hsecond (base :: stack) state] at hboth
  obtain ⟨w, -, rfl⟩ := ExecResult.map_ok.mp hboth
  refine ⟨base, w, ?_, h⟩
  rw [Code.yields, hfirst [] state, hbase]
  rfl

/-- A value is stored. -/
theorem Code.Steady.execute_store (ha : a.Steady env) (hb : b.Steady env) {s : Scalar}
    {offset : Nat} {r : List Word × MachineState}
    (h : (a ++ b ++ .one (.store s offset)).execute env stack state = .ok r) :
    ∃ base w m, a.yields env state = .ok base ∧ state.memory.store s base offset w = .ok m ∧
      r = (stack, { state with memory := m }) := by
  obtain ⟨base, w, hbase, h⟩ := ha.execute_both hb h
  rw [Code.execute_one, Instr.perform_store] at h
  obtain ⟨m, hm, rfl⟩ := ExecResult.map_ok.mp h
  exact ⟨base, w, m, hbase, hm, rfl⟩

/-- A value is put into a local and stored. -/
theorem Code.Steady.execute_tee_store (ha : a.Steady env) (hb : b.Steady env) {name : String}
    {s : Scalar} {offset : Nat} {r : List Word × MachineState}
    (h : (a ++ b ++ .ofList [.localTee name, .store s offset]).execute env stack state = .ok r) :
    ∃ base w m, a.yields env state = .ok base ∧ state.memory.store s base offset w = .ok m ∧
      r = (stack, { state.setLocal name w with memory := m }) := by
  obtain ⟨base, w, hbase, h⟩ := ha.execute_both hb h
  rw [Code.execute_ofList_cons, Instr.perform_localTee] at h
  obtain ⟨_, htee, h⟩ := ExecResult.bind_ok.mp h
  cases htee
  rw [Code.execute_ofList_cons, Instr.perform_store] at h
  obtain ⟨_, hstore, h⟩ := ExecResult.bind_ok.mp h
  obtain ⟨m, hm, rfl⟩ := ExecResult.map_ok.mp hstore
  cases h
  exact ⟨base, w, m, hbase, hm, rfl⟩

end Pieces

/-! ## Assignments -/

section Assignments

variable {env : Environment} {info : ModuleInfo} {arena : Arena} {f : Frame} (hf : f.WellFormed)
variable {target value base : ExprId} {x member : String} {code : Code}
variable {before after : MachineState}
variable (hvalue : arena.EffectFree value)
variable (hrun : code.execute env [] before = .ok ([], after))

include hvalue hrun

/-- Storing into a member leaves the registers alone. -/
theorem assignPlaceWith_registers {e : Expr}
    (he : ∀ sc sub, targetPlaceWith sc sub e = memberPlace sc base member)
    (hcode : assignPlaceWith ⟨info, arena, some f⟩ (lower ⟨info, arena, some f⟩) e value false =
      .ok code) : after.registers = before.registers := by
  simp only [assignPlaceWith, Bool.false_eq_true, ↓reduceIte, bind_ok,
    pure_ok, he] at hcode
  obtain ⟨p, hp, operand, hoperand, rfl⟩ := hcode
  obtain ⟨_, _, m, -, -, hafter⟩ :=
    (memberPlace_steady hp).execute_store (asLane_steady hvalue hoperand) hrun
  cases hafter
  rfl

theorem setPointee_effect (htarget : arena.expr? target = some (.pointerMember base member))
    (hcode : assignWith ⟨info, arena, some f⟩ (lower ⟨info, arena, some f⟩) target value false =
      .ok code) : (Action.setPointee x member).Effect info f f before after := by
  have hexpr : Scope.expr ⟨info, arena, some f⟩ target = .ok (.pointerMember base member) :=
    Scope.expr_eq_ok.mpr htarget
  simp only [assignWith, hexpr, ok_bind] at hcode
  refine ⟨fun name _ => ?_, fun _ _ => rfl, fun _ _ _ _ _ hgives => hgives.elim⟩
  rw [assignPlaceWith_registers hvalue hrun (fun _ _ => rfl) hcode]

include hf

theorem setMember_effect (hbase : arena.expr? base = some (.ident x))
    (htarget : arena.expr? target = some (.member base member))
    (hcode : assignWith ⟨info, arena, some f⟩ (lower ⟨info, arena, some f⟩) target value false =
      .ok code) : (Action.setMember x member).Effect info f f before after := by
  have hexpr : Scope.expr ⟨info, arena, some f⟩ target = .ok (.member base member) :=
    Scope.expr_eq_ok.mpr htarget
  have hflattened : Scope.flattenedMember? ⟨info, arena, some f⟩ base member =
      f.visibleLocal? (Scope.flattenedName x member) := by
    simp [Scope.flattenedMember?, hbase, Scope.flattened?]
  simp only [assignWith, hexpr, ok_bind, hflattened] at hcode
  -- Only a flattened member has a local of its own that could get out of step with memory.
  cases hv : f.visibleLocal? (Scope.flattenedName x member) with
  | none =>
    simp only [hv] at hcode
    refine ⟨fun name _ => ?_, fun _ _ => rfl, ?_⟩
    · rw [assignPlaceWith_registers hvalue hrun (fun _ _ => rfl) hcode]
    · rintro _ _ s offset ⟨hlocal, -⟩ ⟨rfl, rfl⟩
      simp [hv] at hlocal
  | some v =>
    simp only [hv, assignFlattenedWith, Bool.false_eq_true, ↓reduceIte, bind_ok,
      pure_ok] at hcode
    obtain ⟨p, hp, operand, hoperand, rfl⟩ := hcode
    -- The value stays on the stack after it was given to the local, and is then stored.
    obtain ⟨address, w, m, haddress, hm, hafter⟩ :=
      (memberPlace_steady hp).execute_tee_store (asLane_steady hvalue hoperand) hrun
    have hname : v.name = Scope.flattenedName x member := (visible_eq hf hv).1
    cases hafter
    refine ⟨fun name hname' => ?_, fun _ _ => rfl, ?_⟩
    · exact before.setLocal_of_ne w (hname ▸ hname')
    · rintro _ _ s offset hmirrors ⟨rfl, rfl⟩
      rw [hmirrors.memberPlace hf hbase] at hp
      cases hp
      rw [Code.yields_localGet] at haddress
      cases haddress
      rw [hname]
      exact MachineState.reads_given hm

theorem setVariable_effect (htarget : arena.expr? target = some (.ident x))
    (hcode : assignWith ⟨info, arena, some f⟩ (lower ⟨info, arena, some f⟩) target value false =
      .ok code) : (Action.setVariable x).Effect info f f before after := by
  have hexpr : Scope.expr ⟨info, arena, some f⟩ target = .ok (.ident x) :=
    Scope.expr_eq_ok.mpr htarget
  simp only [assignWith, hexpr, ok_bind, bind_ok, assignVariableWith,
    Bool.false_eq_true, ↓reduceIte, pure_ok] at hcode
  obtain ⟨v, hv, set, hset, operand, hoperand, rfl⟩ := hcode
  have hsteady : operand.Steady env := asLane_steady hvalue hoperand
  obtain ⟨assigned, hassigned⟩ := hsteady
  rw [Code.execute_append, hassigned [] before] at hrun
  obtain ⟨_, hpushed, hrun⟩ := ExecResult.bind_ok.mp hrun
  obtain ⟨w, -, rfl⟩ := ExecResult.map_ok.mp hpushed
  rw [Code.execute_one] at hrun
  refine ⟨fun name hname => ?_, fun _ _ => rfl, fun _ _ _ _ _ hgives => hgives.elim⟩
  exact set_kept hf hv hset hrun hname

end Assignments

/-! ## Struct literals -/

/-- What giving the members of a struct their first values does. -/
structure Initialised (x : String) (entries : List (String × MemberLayout))
    (before after : MachineState) : Prop where
  kept : ∀ name, (∀ e ∈ entries, name ≠ Scope.flattenedName x e.1) →
    after.registers (.localVar name) = before.registers (.localVar name)
  /-- Nothing is stored in front of the members. -/
  front : ∀ s base offset, (∀ e ∈ entries, base.toNat + offset + s.size ≤
      (before.registers (.localVar x)).toNat + e.2.offset) →
    after.memory.load s base offset = before.memory.load s base offset
  given : entries.Pairwise (fun a b => a.1 ≠ b.1 ∧ a.2.offset + a.2.ty.size ≤ b.2.offset) →
    ∀ e ∈ entries, ∀ s, e.2.ty.storage? = some s →
      after.reads x s e.2.offset = .ok (s.narrow (after.held x e.1))

theorem Initialised.base {x : String} {entries : List (String × MemberLayout)}
    {before after : MachineState} (h : Initialised x entries before after) :
    after.registers (.localVar x) = before.registers (.localVar x) :=
  h.kept x fun e _ => (Scope.flattenedName_ne x e.1).symm

section Let

variable {env : Environment} {sc : Scope} {x : String} {fields : List FieldInit}
variable (hvalues : ∀ field ∈ fields, sc.arena.EffectFree field.value)

include hvalues

theorem initMember_steps {member : String} {layout : MemberLayout} {code : Code}
    (h : initMember sc x fields (member, layout) = .ok code) {before : MachineState}
    {r : List Word × MachineState} (hrun : code.execute env [] before = .ok r) :
    ∃ s w m, layout.ty.storage? = some s ∧
      before.memory.store s (before.registers (.localVar x)) layout.offset w = .ok m ∧
      r = ([], { before.setLocal (Scope.flattenedName x member) w with memory := m }) := by
  obtain ⟨s, value, hs, hvalue, rfl⟩ := initMember_ok h
  have hsteady : value.Steady env := by
    rcases hvalue with ⟨field, hfield, hvalue⟩ | ⟨-, rfl⟩
    · exact asLane_steady (hvalues field (List.mem_of_find?_eq_some hfield)) hvalue
    · exact (sc.composes_pure.constant _ _).steady
  have hget : (Code.one (.localGet x)).Steady env := Code.steady_one rfl
  obtain ⟨base, w, m, hbase, hm, rfl⟩ := hget.execute_tee_store hsteady hrun
  rw [Code.yields_localGet] at hbase
  cases hbase
  exact ⟨s, w, m, hs, hm, rfl⟩

/-- Members are initialised one after the other, so a member is not touched by those behind it. -/
theorem initMembers_initialised {entries : List (String × MemberLayout)} {code : Code}
    (h : initMembers sc x fields entries = .ok code) {before : MachineState}
    {r : List Word × MachineState} (hrun : code.execute env [] before = .ok r) :
    ∃ after, r = ([], after) ∧ Initialised x entries before after := by
  induction entries generalizing code before with
  | nil =>
    cases h
    cases hrun
    exact ⟨before, rfl, fun _ _ => rfl, fun _ _ _ _ => rfl, nofun⟩
  | cons entry rest ih =>
    obtain ⟨member, layout⟩ := entry
    simp only [initMembers, bind_ok, pure_ok] at h
    obtain ⟨first, hfirst, others, hothers, rfl⟩ := h
    rw [Code.execute_append] at hrun
    obtain ⟨_, hfirstRun, hrun⟩ := ExecResult.bind_ok.mp hrun
    obtain ⟨s, w, m, hs, hm, rfl⟩ := initMember_steps hvalues hfirst hfirstRun
    obtain ⟨after, rfl, hrest⟩ := ih hothers hrun
    have hx : x ≠ Scope.flattenedName x member := (Scope.flattenedName_ne x member).symm
    have hbase : MachineState.registers
        { before.setLocal (Scope.flattenedName x member) w with memory := m } (.localVar x) =
        before.registers (.localVar x) := before.setLocal_of_ne w hx
    refine ⟨after, rfl, ?_, ?_, ?_⟩
    · intro name hname
      obtain ⟨hfirstName, hrestNames⟩ := List.forall_mem_cons.mp hname
      rw [hrest.kept name hrestNames]
      exact before.setLocal_of_ne w hfirstName
    · intro s' base offset hfront
      obtain ⟨hfirstFront, hrestFront⟩ := List.forall_mem_cons.mp hfront
      rw [hrest.front s' base offset (by rwa [hbase])]
      exact Memory.load_store_apart hm (.inl hfirstFront)
    · intro hspread
      obtain ⟨hbehind, hspread⟩ := List.pairwise_cons.mp hspread
      refine List.forall_mem_cons.mpr ⟨fun s' hs' => ?_, hrest.given hspread⟩
      cases hs.symm.trans hs'
      -- The first member lies in front of the others, and its local is not theirs.
      have hheld : after.held x member = MachineState.held
          { before.setLocal (Scope.flattenedName x member) w with memory := m } x member :=
        hrest.kept _ fun e he heq => (hbehind e he).1 (Scope.flattenedName_inj heq)
      rw [hheld, ← MachineState.reads_given hm]
      unfold MachineState.reads
      rw [hrest.base]
      refine hrest.front s _ _ fun e he => ?_
      have hoffset : layout.offset + layout.ty.size ≤ e.2.offset := (hbehind e he).2
      rw [hbase, Ty.storage?_size hs]
      show _ + layout.offset + _ ≤ _
      omega

end Let

/-- A struct literal is its address. -/
theorem lower_struct {sc : Scope} {id : ExprId} {structName : String} {fields : List FieldInit}
    (he : sc.arena.expr? id = some (.struct structName fields)) {code : Code}
    (h : lower sc id = .ok code) :
    ∃ address : Nat, sc.info.literals.get? id = some address ∧ code = .one (.intConst address) := by
  rw [lower, descend_eq] at h
  simp only [lowerStep, Scope.expr_eq_ok.mpr he, ok_bind] at h
  split at h
  · next address haddress =>
    cases h
    exact ⟨address, haddress, rfl⟩
  · cases h

/-- The code of a `let` that binds a struct literal, and where it puts it. -/
theorem letCode_struct {sc : Scope} {locals : Table String Variable} {decl : LetDecl}
    {structName : String} {fields : List FieldInit} {layout : StructLayout}
    (hinit : sc.arena.expr? decl.init = some (.struct structName fields))
    (hlayout : sc.info.structLayout structName = .ok layout) {r : Code × List String}
    (h : letCode sc locals decl = .ok r) :
    ∃ (address : Nat) (members : Code), sc.info.literals.get? decl.init = some address ∧
      initMembers sc decl.name fields layout.members.entries = .ok members ∧
      r.1 = .one (.intConst address) ++ .one (.localSet decl.name) ++ members := by
  simp only [letCode, Scope.expr_eq_ok.mpr hinit, ok_bind, hlayout, bind_ok,
    pure_ok] at h
  obtain ⟨-, -, literal, hliteral, members, hmembers, rfl⟩ := h
  obtain ⟨address, haddress, rfl⟩ := lower_struct hinit hliteral
  exact ⟨address, members, haddress, hmembers, rfl⟩

theorem bind_effect {env : Environment} {info : ModuleInfo} {arena : Arena} {f : Frame}
    {decl : LetDecl} {structName : String} {fields : List FieldInit} {layout : StructLayout}
    {code : Code} {before after : MachineState}
    (hinit : arena.expr? decl.init = some (.struct structName fields))
    (hlayout : info.structLayout structName = .ok layout)
    (hvalues : ∀ field ∈ fields, arena.EffectFree field.value)
    (hcode : leafCode info arena f (.binding decl) = .ok code)
    (hrun : code.execute env [] before = .ok ([], after)) :
    (Action.bind decl.name layout).Effect info f
      (f.revealAll (Source.letNames info arena decl)) before after := by
  have hnames : Source.letNames info arena decl =
      decl.name :: layout.members.keys.map (Scope.flattenedName decl.name) := by
    simp only [Source.letNames, hinit, hlayout]
  obtain ⟨r, hr, rfl⟩ := map_ok.mp hcode
  obtain ⟨address, members, -, hmembers, hsequence⟩ := letCode_struct hinit hlayout hr
  rw [hsequence, Code.execute_append] at hrun
  obtain ⟨_, hset, hrun⟩ := ExecResult.bind_ok.mp hrun
  cases hset
  -- The address is in its local by now; what follows is one store for each member.
  obtain ⟨_, heq, hinitialised⟩ := initMembers_initialised hvalues hmembers hrun
  cases heq
  refine ⟨fun name hname => ?_, fun name hname => ?_, ?_⟩
  · obtain ⟨hself, hothers⟩ := not_or.mp hname
    rw [hinitialised.kept name fun e he heq =>
      hothers ⟨e.1, List.mem_map.mpr ⟨e, he, rfl⟩, heq⟩]
    exact before.setLocal_of_ne _ hself
  · obtain ⟨hself, hothers⟩ := not_or.mp hname
    refine Frame.visibleLocal?_revealAll ?_
    rw [hnames, List.mem_cons, not_or]
    refine ⟨hself, fun hmem => ?_⟩
    obtain ⟨member, hmember, heq⟩ := List.mem_map.mp hmem
    exact hothers ⟨member, hmember, heq.symm⟩
  · rintro _ member s offset - ⟨rfl, hspread, m, hm, hs, rfl⟩
    exact hinitialised.given hspread (member, m) (Table.mem_of_get? hm) s hs

/-! ## Statements -/

section Statements

variable {env : Environment} {info : ModuleInfo} {arena : Arena} {id : StmtId} {tail : Bool}
variable {s s' : LowerState} {body : Body}

theorem Lowers.expr_iff {e : ExprId} (hs : arena.stmt? id = some (.expr e)) :
    Lowers info arena [id] tail s body s' ↔ s' = s ∧ ∃ code, body = .run code .done ∧
      leafCode info arena s.frame (.effect e) = .ok code := by
  constructor
  · intro h
    cases h with
    | expr hs' hcode =>
      cases hs.symm.trans hs'
      exact ⟨rfl, _, rfl, hcode⟩
    | _ => simp_all
  · rintro ⟨rfl, code, rfl, hcode⟩
    exact .expr hs hcode

theorem Lowers.letting_iff {decl : LetDecl} (hs : arena.stmt? id = some (.letting decl)) :
    Lowers info arena [id] tail s body s' ↔ s' = s.reveal (Source.letNames info arena decl) ∧
      ∃ code, body = .run code .done ∧
        leafCode info arena s.frame (.binding decl) = .ok code := by
  constructor
  · intro h
    cases h with
    | letting hs' hcode =>
      cases hs.symm.trans hs'
      exact ⟨rfl, _, rfl, hcode⟩
    | _ => simp_all
  · rintro ⟨rfl, code, rfl, hcode⟩
    exact .letting hs hcode

variable {action : Action} (h : arena.Acts info id action)

include h

/-- An action is a statement or a `let`: one piece of code, wherever it stands. -/
theorem Arena.Acts.lowers_iff : ∃ leaf names, ∀ tail s body s',
    Lowers info arena [id] tail s body s' ↔ s' = s.reveal names ∧
      ∃ code, body = .run code .done ∧ leafCode info arena s.frame leaf = .ok code := by
  cases h with
  | bind hs _ _ _ => exact ⟨_, _, fun _ _ _ _ => Lowers.letting_iff hs⟩
  | setMember hs _ _ _ _ | setPointee hs _ _ _ _ | setVariable hs _ _ _ =>
    exact ⟨_, [], fun _ _ _ _ => Lowers.expr_iff hs⟩

/-- Running the code of an action has its effect. -/
theorem Arena.Acts.effect {code : Code} (hs : Lowers info arena [id] tail s (.run code .done) s')
    (hf : s.frame.WellFormed) {before after : MachineState}
    (hrun : code.execute env [] before = .ok ([], after)) :
    action.Effect info s.frame s'.frame before after := by
  have hassign : ∀ {e target value : ExprId}, arena.expr? e = some (.assign target value) →
      Lower.discard ⟨info, arena, some s.frame⟩ e = .ok code →
      assignWith ⟨info, arena, some s.frame⟩ (lower ⟨info, arena, some s.frame⟩) target value
        false = .ok code := by
    intro e target value he hcode
    have hexpr : Scope.expr ⟨info, arena, some s.frame⟩ e = .ok (.assign target value) :=
      Scope.expr_eq_ok.mpr he
    simpa only [Lower.discard, hexpr, ok_bind] using hcode
  cases h with
  | bind hstmt hinit hlayout hvalues =>
    obtain ⟨rfl, _, hbody, hcode⟩ := (Lowers.letting_iff hstmt).mp hs
    cases hbody
    exact bind_effect hinit hlayout hvalues hcode hrun
  | setMember hstmt he htarget hbase hvalue =>
    obtain ⟨rfl, _, hbody, hcode⟩ := (Lowers.expr_iff hstmt).mp hs
    cases hbody
    exact setMember_effect hf hvalue hrun hbase htarget (hassign he hcode)
  | setPointee hstmt he htarget hbase hvalue =>
    obtain ⟨rfl, _, hbody, hcode⟩ := (Lowers.expr_iff hstmt).mp hs
    cases hbody
    exact setPointee_effect hvalue hrun htarget (hassign he hcode)
  | setVariable hstmt he htarget hvalue =>
    obtain ⟨rfl, _, hbody, hcode⟩ := (Lowers.expr_iff hstmt).mp hs
    cases hbody
    exact setVariable_effect hf hvalue hrun htarget (hassign he hcode)

end Statements

end WasmBackend
