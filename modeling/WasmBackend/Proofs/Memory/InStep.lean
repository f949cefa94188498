import Mathlib.Data.List.Induction
import WasmBackend.Proofs.Control.Target
import WasmBackend.Proofs.Memory.Statements
import WasmBackend.Proofs.Modules.Parts

/-!
# When members stay in step

The body of a function is run statement by statement. Its code is the code of its first statements
followed by the code of the rest, and a state is **passed** at a boundary between statements if
running the first part ends in it (`FunctionLowering.Passes`).

For bodies made of struct `let`s and assignments this says at which boundaries members are in step:
at all of them exactly if every statement on the way is faithful. The two ways to write a member are
not alike. `x.member = …` writes both places, and is faithful if the value fits. `x->member = …`
writes memory only, so it is faithful only if it changes nothing that any member reads. `poke` is a
function in which it does, and in which a member is out of step from then on. Bodies with any other
statement are left out.
-/

namespace WasmBackend

open Lower

/-! ## Sequences of statements -/

theorem Body.append_assoc (a b c : Body) : a ++ b ++ c = a ++ (b ++ c) := by
  have happ : ∀ c d : Body, c ++ d = c.append d := fun _ _ => rfl
  simp only [happ]
  induction a with
  | done => rfl
  | run code rest ih => exact congrArg (Body.run code) ih
  | block label inner rest _ ih => exact congrArg (Body.block label inner) ih
  | loop label inner rest _ ih => exact congrArg (Body.loop label inner) ih
  | branch label rest ih => exact congrArg (Body.branch label) ih
  | branchUnless condition label rest ih => exact congrArg (Body.branchUnless condition label) ih
  | cond condition result arm rest _ ih => exact congrArg (Body.cond condition result arm) ih
  | condElse condition result thenArm elseArm rest _ _ ih =>
    exact congrArg (Body.condElse condition result thenArm elseArm) ih
  | ret value rest ih => exact congrArg (Body.ret value) ih
  | unreachable rest ih => exact congrArg Body.unreachable ih

section Sequences

variable {info : ModuleInfo} {arena : Arena} {pre post : List StmtId} {id : StmtId}
variable {tail : Bool} {s s' : LowerState} {body : Body}

theorem Lowers.block_inv {stmts : List StmtId} (h : Lowers info arena [id] tail s body s')
    (hs : arena.stmt? id = some (.block stmts)) : Lowers info arena stmts tail s body s' := by
  cases h with
  | block hs' _ hstmts =>
    cases hs.symm.trans hs'
    exact hstmts
  | _ => simp_all

/-- The last statement of a sequence comes after the others. -/
theorem Lowers.concat_iff : Lowers info arena (pre ++ [id]) tail s body s' ↔
    ∃ mid a b, Lowers info arena pre false s a mid ∧ Lowers info arena [id] tail mid b s' ∧
      body = a ++ b := by
  induction pre generalizing s body with
  | nil =>
    constructor
    · intro h
      exact ⟨s, .done, body, .nil, h, rfl⟩
    · rintro ⟨mid, a, b, ha, hb, rfl⟩
      cases ha
      exact hb
  | cons first rest ih =>
    cases rest with
    | nil =>
      constructor
      · intro h
        cases h with
        | cons ha hb => exact ⟨_, _, _, ha, hb, rfl⟩
      · rintro ⟨mid, a, b, ha, hb, rfl⟩
        exact .cons ha hb
    | cons second rest =>
      constructor
      · intro h
        cases h with
        | cons hfirst hrest =>
          obtain ⟨mid, a, b, ha, hb, rfl⟩ := ih.mp hrest
          exact ⟨mid, _, b, .cons hfirst ha, hb, (Body.append_assoc _ a b).symm⟩
      · rintro ⟨mid, a, b, ha, hb, rfl⟩
        cases ha with
        | cons hfirst hrest =>
          rw [Body.append_assoc]
          exact .cons hfirst (ih.mpr ⟨mid, _, b, hrest, hb, rfl⟩)

/-- An action at the front of a sequence comes before the others. -/
theorem Lowers.cons_iff {action : Action} (hid : arena.Acts info id action) :
    Lowers info arena (id :: post) tail s body s' ↔
      ∃ mid code b, Lowers info arena [id] false s (.run code .done) mid ∧
        Lowers info arena post tail mid b s' ∧ body = .run code .done ++ b := by
  obtain ⟨leaf, names, hiff⟩ := hid.lowers_iff
  cases post with
  | nil =>
    constructor
    · intro h
      obtain ⟨rfl, code, rfl, hcode⟩ := (hiff tail s body s').mp h
      exact ⟨_, code, .done, (hiff _ _ _ _).mpr ⟨rfl, code, rfl, hcode⟩, .nil, rfl⟩
    · rintro ⟨mid, code, b, hcode, hb, rfl⟩
      cases hb
      exact (hiff _ _ _ _).mpr ((hiff _ _ _ _).mp hcode)
  | cons second rest =>
    constructor
    · intro h
      cases h with
      | cons ha hb =>
        obtain ⟨rfl, code, rfl, hcode⟩ := (hiff _ _ _ _).mp ha
        exact ⟨_, code, _, ha, hb, rfl⟩
    · rintro ⟨mid, code, b, hcode, hb, rfl⟩
      exact .cons hcode hb

end Sequences

/-! ## Boundaries -/

/-- Each piece of code is one step. It has to use up what it puts on the stack. -/
def MachineState.machine (env : Environment) : AtomicMachine MachineState where
  compute code state :=
    match code.execute env [] state with
    | .ok ([], after) => some after
    | _ => none
  test code state :=
    match code.execute env [] state with
    | .ok ([w], after) => some (after, w != 0)
    | _ => none

open MachineState (machine)

theorem Body.exec_run_normal {env : Environment} {code : Code} {n : Nat}
    {before after : MachineState} :
    ((Body.run code .done).exec (machine env) n before).outcome = .normal after ↔
      code.execute env [] before = .ok ([], after) := by
  have hexec : (Body.run code .done).exec (machine env) n before =
      Body.computing (machine env) code before := Run.andThen_ended _
  rw [hexec, Body.computing]
  split
  · next hnil =>
    subst hnil
    simp [Run.ended, Code.execute]
  · simp only [AtomicMachine.perform, machine]
    cases hrun : code.execute env [] before with
    | error fault => simp
    | ok r =>
      obtain ⟨stack, state⟩ := r
      cases stack <;> simp

namespace Lower.FunctionLowering

variable {info : ModuleInfo} {arena : Arena} {name : String} {entry : FunctionEntry}
variable {func : Wat.Func} (l : FunctionLowering info arena name entry func)
variable (env : Environment) (start : MachineState)

/-- The code of the body is code of the first statements and then code of the others. -/
structure Cuts (pre post : List StmtId) (front back : Body) (s : LowerState) : Prop where
  emitted : l.body = front ++ back
  first : Lowers info arena pre false ⟨l.declared.hideLocals, l.labels⟩ front s
  others : Lowers info arena post true s back l.after

/-- The body of the function is a block of these statements, and running the code of the first ones
ends in this state. -/
def Passes (pre post : List StmtId) (s : LowerState) (state : MachineState) : Prop :=
  arena.stmt? l.decl.body = some (.block (pre ++ post)) ∧
  ∃ front back n, l.Cuts pre post front back s ∧
    (front.exec (machine env) n start).outcome = .normal state

/-- The run of the function comes to this statement in one state, and through it to another. -/
def Takes (id : StmtId) (s s' : LowerState) (before after : MachineState) : Prop :=
  ∃ pre post, l.Passes env start pre (id :: post) s before ∧
    ∃ code, Lowers info arena [id] false s (.run code .done) s' ∧
      code.execute env [] before = .ok ([], after)

variable {l env start} {pre post : List StmtId} {s s' : LowerState}
variable {state before after : MachineState}

/-- Frames inside a function are well-formed. -/
theorem Passes.wellFormed (h : l.Passes env start pre post s state) : s.frame.WellFormed := by
  obtain ⟨-, _, _, _, hcuts, -⟩ := h
  rw [hcuts.first.frame_eq, Frame.revealAll_eq]
  exact bodyFrame_wellFormed l.params_eq l.declared_eq _ l.declared.loops

/-- Nothing is visible at the beginning, so nothing is out of step. -/
theorem Passes.inStep_start (h : l.Passes env start [] post s state) :
    InStep env info s.frame state := by
  obtain ⟨-, _, _, _, hcuts, -⟩ := h
  cases hcuts.first
  intro _ _ x _ _ _ hx
  have hnone : l.declared.hideLocals.visibleLocal? x = none := by
    unfold Frame.visibleLocal?
    split
    · rfl
    · next hpending =>
      rw [show l.declared.hideLocals.locals = l.declared.locals from rfl,
        Table.get?_eq_none_iff]
      simpa [Frame.hideLocals] using hpending
  rw [hnone] at hx
  cases hx

section Step

variable {id : StmtId} {action : Action} (hid : arena.Acts info id action)

include hid

/-- A cut in front of an action can be moved behind it. -/
theorem Cuts.concat {front back : Body} (h : l.Cuts pre (id :: post) front back s) :
    ∃ s' code rest, Lowers info arena [id] false s (.run code .done) s' ∧
      l.Cuts (pre ++ [id]) post (front ++ .run code .done) rest s' := by
  obtain ⟨s', code, rest, hs, hrest, rfl⟩ := (Lowers.cons_iff hid).mp h.others
  refine ⟨s', code, rest, hs, ?_, ?_, hrest⟩
  · rw [Body.append_assoc, h.emitted]
  · exact Lowers.concat_iff.mpr ⟨s, front, _, h.first, hs, rfl⟩

/-- And a cut behind it can be moved in front of it. -/
theorem Cuts.concat_inv {front back : Body} (h : l.Cuts (pre ++ [id]) post front back s') :
    ∃ s code start, Lowers info arena [id] false s (.run code .done) s' ∧
      front = start ++ .run code .done ∧
      l.Cuts pre (id :: post) start (.run code .done ++ back) s := by
  obtain ⟨leaf, names, hiff⟩ := hid.lowers_iff
  obtain ⟨s, start, last, hstart, hlast, rfl⟩ := Lowers.concat_iff.mp h.first
  obtain ⟨-, code, rfl, -⟩ := (hiff _ _ _ _).mp hlast
  refine ⟨s, code, start, hlast, rfl, ?_, hstart, ?_⟩
  · rw [← Body.append_assoc, h.emitted]
  · exact (Lowers.cons_iff hid).mpr ⟨s', code, back, hlast, h.others, rfl⟩

/-- The boundary behind a statement is passed after the one in front of it. -/
theorem Passes.concat_inv (h : l.Passes env start (pre ++ [id]) post s' after) :
    ∃ s before, l.Passes env start pre (id :: post) s before ∧
      ∃ code, Lowers info arena [id] false s (.run code .done) s' ∧
        code.execute env [] before = .ok ([], after) := by
  obtain ⟨hblock, front, back, n, hcuts, hexec⟩ := h
  obtain ⟨s, code, front, hs, rfl, hfront⟩ := hcuts.concat_inv hid
  rw [Body.exec_append] at hexec
  obtain ⟨before, hbefore, hafter⟩ := Run.andThen_outcome_normal hexec
  rw [List.append_assoc, List.singleton_append] at hblock
  exact ⟨s, before, ⟨hblock, front, _, n, hfront, hbefore⟩, code, hs,
    Body.exec_run_normal.mp hafter⟩

/-- A statement that comes to its end passes the boundary behind it. -/
theorem Passes.concat (h : l.Passes env start pre (id :: post) s before) {code : Code}
    (hs : Lowers info arena [id] false s (.run code .done) s')
    (hrun : code.execute env [] before = .ok ([], after)) :
    l.Passes env start (pre ++ [id]) post s' after := by
  obtain ⟨hblock, front, back, n, hcuts, hexec⟩ := h
  obtain ⟨_, _, rest, hs', hcuts⟩ := hcuts.concat hid
  -- There is only one code for the statement here.
  obtain ⟨leaf, names, hiff⟩ := hid.lowers_iff
  obtain ⟨rfl, _, heq, hleaf⟩ := (hiff _ _ _ _).mp hs
  obtain ⟨rfl, _, heq', hleaf'⟩ := (hiff _ _ _ _).mp hs'
  cases heq
  cases heq'
  cases hleaf.symm.trans hleaf'
  refine ⟨by simpa using hblock, _, rest, n, hcuts, ?_⟩
  rw [Body.exec_append, Run.andThen_normal hexec, Run.after_outcome]
  exact Body.exec_run_normal.mpr hrun

end Step

/-- The code of a body of actions can be cut between any two of them. -/
theorem exists_cut {stmts : List StmtId} (hbody : arena.stmt? l.decl.body = some (.block stmts))
    (hstmts : ∀ id ∈ stmts, ∃ action, arena.Acts info id action) :
    ∀ pre post, stmts = pre ++ post → ∃ front back s, l.Cuts pre post front back s := by
  intro pre
  induction pre using List.reverseRecOn with
  | nil =>
    intro post hsplit
    obtain rfl : stmts = post := hsplit
    exact ⟨.done, l.body, _, rfl, .nil, l.lowers.block_inv hbody⟩
  | append_singleton pre id ih =>
    intro post hsplit
    obtain ⟨action, hid⟩ := hstmts id (hsplit ▸ by simp)
    obtain ⟨front, back, s, hcuts⟩ := ih (id :: post) (by simpa using hsplit)
    obtain ⟨s', code, rest, -, hcuts⟩ := hcuts.concat hid
    exact ⟨_, rest, s', hcuts⟩

end Lower.FunctionLowering

/-! ## The theorem -/

section Main

variable {info : ModuleInfo} {arena : Arena} {name : String} {entry : FunctionEntry}
variable {func : Wat.Func}

/-- In a function whose body is made of struct `let`s and of assignments to variables and members,
there is a boundary between any two statements. Members are in step at every boundary that a run
passes, exactly if every statement that the run takes is faithful: the values that a `let` or
`x.member = …` gives fit their members, and apart from these no member reads anything new. -/
theorem members_in_step_iff_faithful (l : FunctionLowering info arena name entry func)
    {stmts : List StmtId} (hbody : arena.stmt? l.decl.body = some (.block stmts))
    (hstmts : ∀ id ∈ stmts, ∃ action, arena.Acts info id action) (env : Environment)
    (start : MachineState) :
    (∀ pre post, stmts = pre ++ post → ∃ front back s, l.Cuts pre post front back s) ∧
      ((∀ pre post s state, l.Passes env start pre post s state →
          InStep env info s.frame state) ↔
        ∀ id action s s' before after, arena.Acts info id action →
          l.Takes env start id s s' before after →
          action.Faithful info s'.frame before after) := by
  refine ⟨l.exists_cut hbody hstmts, ?_, ?_⟩
  · rintro hstep id action s s' before after hid ⟨pre, post, hpasses, code, hs, hrun⟩
    have hbehind := hpasses.concat hid hs hrun
    have heffect := hid.effect hs hpasses.wellFormed hrun
    rw [← heffect.inStep_iff hpasses.wellFormed hbehind.wellFormed (hstep _ _ _ _ hpasses)]
    exact hstep _ _ _ _ hbehind
  · intro hfaithful pre
    induction pre using List.reverseRecOn with
    | nil =>
      intro post s state hpasses
      exact hpasses.inStep_start
    | append_singleton pre id ih =>
      intro post s' after hpasses
      obtain ⟨action, hid⟩ : ∃ action, arena.Acts info id action := by
        have heq := hpasses.1.symm.trans hbody
        simp only [Option.some.injEq, Stmt.block.injEq] at heq
        exact hstmts id (heq ▸ by simp)
      obtain ⟨s, before, hfront, code, hs, hrun⟩ := hpasses.concat_inv hid
      have heffect := hid.effect hs hfront.wellFormed hrun
      rw [heffect.inStep_iff hfront.wellFormed hpasses.wellFormed (ih _ _ _ hfront)]
      exact hfaithful id action s s' before after hid ⟨pre, post, hfront, code, hs, hrun⟩

end Main

/-- A function that sets a member through its struct and then through the pointer to it:
`struct S { m: i32 }`, `fun poke() { let b = S { m: 1 }; b.m = 2; b->m = 5; }` -/
def poke : Module where
  name := "poke"
  items := [0, 5]
  arena := {
    exprs := #[
      .int 1, .struct "S" [⟨"m", 0⟩], .ident "b", .member 2 "m", .int 2, .assign 3 4,
      .pointerMember 2 "m", .int 5, .assign 6 7]
    stmts := #[
      .struct ⟨"S", [⟨"m", .i32⟩], false⟩,
      .letting ⟨"b", none, 1, false⟩,
      .expr 5,
      .expr 8,
      .block [1, 2, 3],
      .function ⟨"poke", [], .void, 4, false⟩] }

namespace poke

def layout : StructLayout := ⟨"S", 4, false, ⟨[("m", ⟨0, 4, .i32⟩)]⟩⟩

def entry : FunctionEntry := ⟨⟨[], .void⟩, false, 5⟩

def info : ModuleInfo where
  name := "poke"
  structs := ⟨[("S", layout)]⟩
  functions := ⟨[("poke", entry)]⟩
  data := { base := 16, cursor := 20, blocks := [⟨16, [1, 0, 0, 0]⟩] }
  literals := ⟨[(1, 16)]⟩

theorem extract_eq : poke.extract 16 = .ok info := by decide +kernel

def letCode : Code := .ofList
  [.intConst 16, .localSet "b", .localGet "b", .intConst 1, .localTee "b_m", .store .i32 0]

def setCode : Code := .ofList [.localGet "b", .intConst 2, .localTee "b_m", .store .i32 0]

def pokeCode : Code := .ofList [.localGet "b", .intConst 5, .store .i32 0]

def declared : Frame where
  name := "poke"
  result := .void
  locals := ⟨[("b_m", ⟨"b_m", .localVar, .i32⟩), ("b", ⟨"b", .localVar, .named "S"⟩)]⟩

theorem declares : declareLocals info poke.arena 4 { name := "poke", result := .void } =
    .ok () declared :=
  FrameM.result?_eq_some.mp (by decide +kernel)

theorem letting_lowers {tail : Bool} : Lowers info poke.arena [1] tail ⟨declared.hideLocals, {}⟩
    (.run letCode .done) ⟨declared, {}⟩ := by
  have hs : poke.arena.stmt? 1 = some (.letting ⟨"b", none, 1, false⟩) := rfl
  exact (Lowers.letting_iff hs).mpr ⟨by decide +kernel, letCode, rfl, by decide +kernel⟩

theorem setting_lowers {tail : Bool} : Lowers info poke.arena [2] tail ⟨declared, {}⟩
    (.run setCode .done) ⟨declared, {}⟩ := .expr rfl (by decide +kernel)

theorem poking_lowers {tail : Bool} : Lowers info poke.arena [3] tail ⟨declared, {}⟩
    (.run pokeCode .done) ⟨declared, {}⟩ := .expr rfl (by decide +kernel)

def lowering : FunctionLowering info poke.arena "poke" entry
    { name := "poke", exported := false, encoded := "_v", params := [], result := none,
      locals := [("b_m", .i32), ("b", .i32)],
      body := .run letCode (.run setCode (.run pokeCode .done)) } where
  decl := ⟨"poke", [], .void, 4, false⟩
  params := { name := "poke", result := .void }
  declared := declared
  labels := {}
  body := .run letCode .done ++ (.run setCode .done ++ .run pokeCode .done)
  after := ⟨declared, {}⟩
  decl_eq := rfl
  params_eq := rfl
  declared_eq := declares
  lowers := .block rfl (by decide) (.cons letting_lowers (.cons setting_lowers poking_lowers))
  func_eq := rfl

def start : MachineState := ⟨fun _ => 0, ⟨65536, fun _ => 0⟩⟩

def beforePoke : MachineState where
  registers := ((start.registers.set (.localVar "b") 16).set (.localVar "b_m") 1).set
    (.localVar "b_m") 2
  memory := (start.memory.write 16 4 1).write 16 4 2

def afterPoke : MachineState := { beforePoke with memory := beforePoke.memory.write 16 4 5 }

theorem acts_pointee : poke.arena.Acts info 3 (.setPointee "b" "m") :=
  .setPointee (e := 8) rfl rfl rfl rfl (.int rfl)

theorem acts : ∀ id ∈ [1, 2, 3], ∃ action, poke.arena.Acts info id action := by
  have hlet : poke.arena.stmt? 1 = some (.letting ⟨"b", none, 1, false⟩) := rfl
  have hset : poke.arena.Acts info 2 (.setMember "b" "m") :=
    .setMember (e := 5) rfl rfl rfl rfl (.int rfl)
  have hvalues : ∀ field ∈ [FieldInit.mk "m" 0], poke.arena.EffectFree field.value := by
    simpa using Arena.EffectFree.int rfl
  simpa using ⟨⟨_, .bind hlet rfl rfl hvalues⟩, ⟨_, hset⟩, ⟨_, acts_pointee⟩⟩

theorem passes : lowering.Passes .silent start [1, 2] [3] ⟨declared, {}⟩ beforePoke := by
  refine ⟨rfl, .run letCode .done ++ .run setCode .done, .run pokeCode .done, 0, ?_, rfl⟩
  exact ⟨rfl, .cons letting_lowers setting_lowers, poking_lowers⟩

theorem takes : lowering.Takes .silent start 3 ⟨declared, {}⟩ ⟨declared, {}⟩ beforePoke afterPoke :=
  ⟨[1, 2], [], passes, pokeCode, poking_lowers, rfl⟩

end poke

/-- Storing through the pointer leaves the local behind: it holds two while memory reads five. -/
theorem poke_out_of_step : poke.extract 16 = .ok poke.info ∧
    (∀ id ∈ [1, 2, 3], ∃ action, poke.arena.Acts poke.info id action) ∧
      ¬ ∀ pre post s state, poke.lowering.Passes .silent poke.start pre post s state →
        InStep .silent poke.info s.frame state := by
  refine ⟨poke.extract_eq, poke.acts, fun hstep => ?_⟩
  have hfaithful := (members_in_step_iff_faithful poke.lowering rfl poke.acts .silent
    poke.start).2.mp hstep 3 _ _ _ _ _ poke.acts_pointee poke.takes
  have hmirrors : poke.declared.Mirrors poke.info "b" "m" .i32 0 :=
    ⟨rfl, ⟨"b", .localVar, .named "S"⟩, "S", poke.layout, ⟨0, 4, .i32⟩, rfl, rfl, rfl, rfl, rfl,
      rfl⟩
  have hread := hfaithful.undisturbed "b" "m" .i32 0 hmirrors (fun h => h) (fun h => h)
  exact absurd hread (by decide +kernel)

end WasmBackend
