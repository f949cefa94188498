import WasmBackend.Proofs.Control.Pieces
import WasmBackend.Proofs.Modules.Parts
import WasmBackend.Proofs.Scoping.Body
import WasmBackend.Proofs.Truth.Expressions

/-!
# Logical operators in the runs of functions

The value of a logical operator has the truth that its operands have, in every run. It is zero or
one only if the right operand is, unless that is a number: the operand is trusted if it is a
boolean, and a boolean variable holds whatever it was given.

In a function whose leaves keep the discipline (`Leaf.Tidy`) the trust is justified. Bits are then
where they are assumed whenever a piece of code is started, so that every logical operator in the
piece leaves a bit. Memory is left out: nothing is assumed of what is loaded.
-/

namespace WasmBackend

open Compiled Lower

/-! ## The leaves of a function -/

/-- A `let` gives boolean locals only bits. The members of a struct are given values one by one. -/
def Scope.BindsBits (sc : Scope) (decl : LetDecl) : Prop :=
  match sc.arena.expr? decl.init with
  | some (.struct name fields) => sc.bits.locals decl.name = false ∧
      ∀ layout, sc.info.structLayout name = .ok layout → ∀ entry ∈ layout.members.entries,
        sc.bits.locals (flattenedName decl.name entry.1) = true → entry.2.ty.lane = .bool ∧
          ∀ field, fields.find? (fun field => field.name == entry.1) = some field →
            sc.givesBit field.value = true
  | _ => sc.bits.locals decl.name = true → sc.givesBit decl.init = true

/-- The leaf keeps the discipline. A function with a boolean result has to return a bit. -/
def Leaf.Tidy (sc : Scope) (result : Ty) : Leaf → Prop
  | .effect e => sc.TidyEffect e
  | .condition e => sc.Tidy e
  | .result e =>
    if result.lane = .void then sc.TidyEffect e
    else sc.Tidy e ∧ (result.lane = .bool → sc.givesBit e = true)
  | .binding decl => sc.Tidy decl.init ∧ sc.BindsBits decl

section Leaves

variable {sc : Scope} (hsc : sc.AllKept) {code : Code}

include hsc

theorem asLane_flags {id : ExprId} (htidy : sc.Tidy id) {lane : Lane}
    (h : asLane sc id lane = .ok code) :
    ∃ flag, sc.bits.Leaves code flag ∧ (lane = .bool → sc.givesBit id = true → flag = true) :=
  asLaneWith_yields (fun _ => lower_yields hsc htidy) h

theorem initMember_flags {name member : String} {fields : List FieldInit} {layout : MemberLayout}
    (hvalues : ∀ field ∈ fields, sc.Tidy field.value)
    (hbits : sc.bits.locals (Scope.flattenedName name member) = true → layout.ty.lane = .bool ∧
      ∀ field, fields.find? (fun field => field.name == member) = some field →
        sc.givesBit field.value = true)
    (h : initMember sc name fields (member, layout) = .ok code) (flags : List Bool) :
    sc.bits.check code flags = some flags := by
  obtain ⟨s, value, -, hvalue, rfl⟩ := initMember_ok h
  have hvalue : ∃ flag, sc.bits.Leaves value flag ∧
      (sc.bits.locals (Scope.flattenedName name member) = true → flag = true) := by
    rcases hvalue with ⟨field, hfind, hvalue⟩ | ⟨-, rfl⟩
    · obtain ⟨flag, hflag, hgives⟩ :=
        asLane_flags hsc (hvalues field (List.mem_of_find?_eq_some hfind)) hvalue
      exact ⟨flag, hflag, fun hbit => hgives (hbits hbit).1 ((hbits hbit).2 field hfind)⟩
    · -- A member without an initialiser is zero.
      obtain ⟨flag, hflag, hgives⟩ := constant_leaves_flag sc.bits (.int 0) layout.ty.lane
      exact ⟨flag, hflag, fun hbit => hgives (hbits hbit).1 (by decide)⟩
  obtain ⟨flag, hflag, hwant⟩ := hvalue
  have hget : sc.bits.Leaves (.one (.localGet name)) (sc.bits.locals name) := .one rfl
  rw [Code.append_assoc, BitContext.check_append, hget flags, Option.bind_some,
    hflag.storedThen hwant rfl]
  rfl

theorem initMembers_flags {name : String} {fields : List FieldInit}
    (hvalues : ∀ field ∈ fields, sc.Tidy field.value) {entries : List (String × MemberLayout)}
    (hbits : ∀ entry ∈ entries, sc.bits.locals (Scope.flattenedName name entry.1) = true →
      entry.2.ty.lane = .bool ∧
        ∀ field, fields.find? (fun field => field.name == entry.1) = some field →
          sc.givesBit field.value = true)
    (h : initMembers sc name fields entries = .ok code) (flags : List Bool) :
    sc.bits.check code flags = some flags := by
  induction entries generalizing code with
  | nil =>
    cases h
    rfl
  | cons entry rest ih =>
    obtain ⟨hentry, hrest⟩ := List.forall_mem_cons.mp hbits
    simp only [initMembers, bind_ok, pure_ok] at h
    obtain ⟨first, hfirst, others, hothers, rfl⟩ := h
    rw [BitContext.check_append, initMember_flags hsc hvalues hentry hfirst, Option.bind_some]
    exact ih hrest hothers

end Leaves

section Frames

variable {info : ModuleInfo} {arena : Arena} {f : Frame} (hf : f.WellFormed) {code : Code}

include hf

theorem letCode_flags {decl : LetDecl} {names : List String}
    (htidy : Scope.Tidy ⟨info, arena, some f⟩ decl.init)
    (hbinds : Scope.BindsBits ⟨info, arena, some f⟩ decl)
    (h : letCode ⟨info, arena, some f⟩ f.locals decl = .ok (code, names)) :
    (Scope.bits ⟨info, arena, some f⟩).check code [] = some [] := by
  have hsc : Scope.AllKept ⟨info, arena, some f⟩ := hf.allKept
  unfold letCode at h
  obtain ⟨e, he, h⟩ := bind_ok.mp h
  have he := Scope.expr_eq_ok.mp he
  unfold Scope.BindsBits at hbinds
  rw [he] at hbinds
  cases e with
  | struct structName fields =>
    simp only [bind_ok, pure_ok] at h
    obtain ⟨layout, hlayout, -, -, address, haddress, members, hmembers, hpair⟩ := h
    cases hpair
    obtain ⟨hself, hbits⟩ := hbinds
    obtain ⟨flag, hflag, -⟩ := lower_yields hsc htidy haddress
    have hvalues : ∀ field ∈ fields, Scope.Tidy ⟨info, arena, some f⟩ field.value :=
      fun field hfield =>
        htidy.within (.operand he (List.mem_map_of_mem (f := FieldInit.value) hfield) .refl)
    -- The name of a struct holds its address, which is not assumed to be a bit.
    have hset := hflag.stored (fun hbit => absurd (hself.symm.trans hbit) (by simp))
      (i := .localSet decl.name) rfl []
    rw [BitContext.check_append, hset]
    exact initMembers_flags hsc hvalues (hbits layout hlayout) hmembers []
  | _ =>
    simp only at h hbinds
    split at h
    · cases h
    · next v hv =>
      simp only [bind_ok, pure_ok] at h
      obtain ⟨value, hvalue, hpair⟩ := h
      cases hpair
      obtain ⟨flag, hflag, hgives⟩ := asLane_flags hsc htidy hvalue
      have hlane (hbit : (Scope.bits ⟨info, arena, some f⟩).locals decl.name = true) :
          v.ty.lane = .bool := Variable.isBit_lane ((bits_locals hf hv).symm.trans hbit)
      exact hflag.stored (fun hbit => hgives (hlane hbit) (hbinds hbit))
        (i := .localSet decl.name) rfl []

/-- The code of a leaf that keeps the discipline is accepted. -/
theorem leafCode_flags {leaf : Leaf} (htidy : leaf.Tidy ⟨info, arena, some f⟩ f.result)
    (h : leafCode info arena f leaf = .ok code) :
    ∃ after, (Scope.bits ⟨info, arena, some f⟩).check code [] = some after ∧
      ∀ e, leaf = .result e → f.result.lane = .bool → after = [true] := by
  have hsc : Scope.AllKept ⟨info, arena, some f⟩ := hf.allKept
  cases leaf with
  | effect e =>
    obtain ⟨after, hafter⟩ := discard_flags hsc htidy h
    exact ⟨after, hafter, by simp⟩
  | condition e =>
    obtain ⟨flag, hflag⟩ := conditionWith_yields (fun _ => lower_yields hsc htidy) h
    exact ⟨_, hflag [], by simp⟩
  | result e =>
    simp only [leafCode, Leaf.Tidy] at h htidy
    -- A function without a result discards what it is given to return.
    split at h
    · next hvoid =>
      rw [if_pos hvoid] at htidy
      obtain ⟨after, hafter⟩ := discard_flags hsc htidy h
      exact ⟨after, hafter, fun _ _ hbool => by simp [hvoid] at hbool⟩
    · next hvoid =>
      rw [if_neg hvoid] at htidy
      obtain ⟨flag, hflag, hgives⟩ := asLane_flags hsc htidy.1 h
      exact ⟨_, hflag [], fun _ _ hbool => by rw [hgives hbool (htidy.2 hbool)]⟩
  | binding decl =>
    obtain ⟨⟨own, names⟩, hown, rfl⟩ := map_ok.mp h
    exact ⟨[], letCode_flags hf htidy.1 htidy.2 hown, by simp⟩

end Frames

/-! ## The runs of a function -/

namespace Lower.FunctionLowering

variable {info : ModuleInfo} {arena : Arena} {name : String} {entry : FunctionEntry}
variable {func : Wat.Func} (l : FunctionLowering info arena name entry func)

/-- The scope in the body where these locals are pending. -/
def scope (pending : List String) : Scope := ⟨info, arena, some { l.declared with pending }⟩

/-- What is assumed to hold bits in the body: the boolean parameters, locals and globals. -/
def bits : BitContext := (l.scope []).bits

/-- Every leaf of the body keeps the discipline wherever it can be lowered. -/
def LeavesTidy : Prop :=
  ∀ leaf ∈ Source.leaves arena l.decl.body, ∀ pending code,
    leafCode info arena { l.declared with pending } leaf = .ok code →
    leaf.Tidy (l.scope pending) l.declared.result

variable {l}

theorem leaf_flags (h : l.LeavesTidy) {leaf : Leaf} {pending : List String} {code : Code}
    (hleaf : leaf ∈ Source.leaves arena l.decl.body)
    (hcode : leafCode info arena { l.declared with pending } leaf = .ok code) :
    ∃ after, l.bits.check code [] = some after ∧
      ∀ e, leaf = .result e → l.declared.result.lane = .bool → after = [true] := by
  have hf : { l.declared with pending }.WellFormed :=
    bodyFrame_wellFormed l.params_eq l.declared_eq pending l.declared.loops
  exact leafCode_flags hf (h leaf hleaf pending code hcode) hcode

/-- No piece of the function is refused. -/
theorem codes_accepted (h : l.LeavesTidy) {code : Code} (hcode : code ∈ func.body.codes) :
    ∃ flags, l.bits.check code [] = some flags := by
  rw [l.codes_eq] at hcode
  rcases Body.exists_piece hcode with rfl | ⟨purpose, hpiece⟩
  · exact ⟨[], rfl⟩
  · obtain ⟨leaf, hleaf, pending, hown⟩ := l.lowers.emits.leaf_of_mem hpiece
    rw [List.flatMap_singleton] at hleaf
    obtain ⟨after, hafter, -⟩ := leaf_flags h hleaf hown
    exact ⟨after, hafter⟩

end Lower.FunctionLowering

/-! ## Logical operators -/

/-- The code of a logical operator. -/
structure Scope.LogicalCode (sc : Scope) (id : ExprId) (op : BinaryOp) (left right : ExprId)
    (code : Code) : Prop where
  expr : sc.arena.expr? id = some (.binary op left right)
  logical : op.isLogical = true
  lowers : lower sc id = .ok code

/-- The value has the truth of the operands combined, whatever that of an operand is that was not
evaluated. -/
def LogicalRun.Combines {sc : Scope} {env : Environment} {op : BinaryOp} {left right : ExprId}
    {stack stack' : List Word} {state state' : MachineState}
    (r : LogicalRun sc env op left right stack state stack' state') : Prop :=
  ∀ b, (∀ w, r.rightValue? = some w → b = env.holds r.rightLane w) →
    (r.value != 0) = op.combine (env.holds r.leftLane r.leftValue) b

theorem BitContext.check_chooseCode {Δ : BitContext} {op : BinaryOp} {second : Code}
    {flags after : List Bool} (h : Δ.check (chooseCode op second) flags = some after) :
    ∃ rest, after = true :: rest := by
  unfold chooseCode at h
  split at h <;> cases flags with
  | nil => cases h
  | cons _ rest =>
    obtain ⟨-, h⟩ := Option.ite_none_right_eq_some.mp h
    cases h
    exact ⟨rest, rfl⟩

/-- Where code is accepted, a logical operator in it leaves a bit. -/
theorem LogicalRun.isBit_of_check {Δ : BitContext} {env : Environment} (henv : Δ.Respects env)
    {sc : Scope} {id left right : ExprId} {op : BinaryOp} {code : Code}
    (hcode : sc.LogicalCode id op left right code) {flags after : List Bool}
    (hcheck : Δ.check code flags = some after) {stack stack' : List Word}
    {state state' : MachineState} (hstack : Flagged flags stack) (hstate : Δ.Holds state)
    (hrun : code.execute env stack state = .ok (stack', state'))
    (r : LogicalRun sc env op left right stack state stack' state') : r.value.IsBit := by
  obtain ⟨hflags, -⟩ := BitContext.check_sound henv hcheck hstack hstate hrun
  obtain ⟨_, _, _, _, -, -, -, -, rfl⟩ := lower_logical hcode.expr hcode.logical hcode.lowers
  rw [Δ.check_append] at hcheck
  obtain ⟨_, -, hchoice⟩ := Option.bind_eq_some_iff.mp hcheck
  obtain ⟨rest, rfl⟩ := BitContext.check_chooseCode hchoice
  rw [r.stack_eq] at hflags
  cases hflags with
  | cons hbit _ => exact hbit rfl

open MachineState (runner)

/-- **What logical operators leave.** Whenever the code of a logical operator comes to its end, its
value has the truth of its operands combined; it is zero or one exactly if the right operand was not
evaluated, is a number, or was zero or one itself. In a function whose leaves keep the discipline it
is zero or one in every run that starts with bits where they are assumed. Such a function returns a
bit if its result is a boolean, and leaves bits where they are assumed, as it relies on for the
functions it calls. -/
theorem logical_values_are_bits_iff {info : ModuleInfo} {arena : Arena} {name : String}
    {entry : FunctionEntry} {func : Wat.Func} (l : FunctionLowering info arena name entry func)
    {env : Environment} (hfloats : env.floats.Compares) :
    (∀ sc id op left right code, Scope.LogicalCode sc id op left right code →
      ∀ stack state stack' state', code.execute env stack state = .ok (stack', state') →
        ∃ r : LogicalRun sc env op left right stack state stack' state', r.Combines ∧
          (r.value.IsBit ↔ ∀ w, r.rightValue? = some w →
            r.rightLane = .int ∨ r.rightLane = .float ∨ w.IsBit)) ∧
      (l.LeavesTidy → l.bits.Respects env → ∀ start, l.bits.Holds start →
        (∀ step state, func.body.Starts (runner env) start step state →
          (∀ sc id op left right code, Scope.LogicalCode sc id op left right code →
            ∀ stack s stack' s', step.code.Enters env [] state code stack s →
              code.execute env stack s = .ok (stack', s') →
              ∃ r : LogicalRun sc env op left right stack s stack' s',
                r.Combines ∧ r.value.IsBit) ∧
          ∀ e pending stack' s', .result e ∈ Source.leaves arena l.decl.body →
            leafCode info arena { l.declared with pending } (.result e) = .ok step.code →
            l.declared.result.lane = .bool →
            step.code.execute env [] state = .ok (stack', s') → ∃ w, stack' = [w] ∧ w.IsBit) ∧
        ∀ n state, (func.body.exec (runner env) n start).outcome.state? = some state →
          l.bits.Holds state) := by
  constructor
  · intro sc id op left right code hcode stack state stack' state' hrun
    obtain ⟨r⟩ := exists_logicalRun hcode.expr hcode.logical hcode.lowers hrun
    exact ⟨r, fun b hb => r.truth hb, r.isBit_iff hfloats⟩
  · intro htidy henv start hstart
    -- Steps keep bits where they are assumed, so each piece starts in a state that holds them.
    obtain ⟨hstarts, hends⟩ :=
      Body.exec_holds henv (fun _ => FunctionLowering.codes_accepted htidy) hstart
    refine ⟨fun step state hstep => ?_, hends⟩
    obtain ⟨hmem, hstate⟩ := hstarts step state hstep
    constructor
    · intro sc id op left right code hcode stack s stack' s' henters hrun
      obtain ⟨flags, hcheck⟩ := FunctionLowering.codes_accepted htidy hmem
      obtain ⟨hs, before, after, hbefore, hpart⟩ := henters.check henv hcheck .nil hstate
      obtain ⟨r⟩ := exists_logicalRun hcode.expr hcode.logical hcode.lowers hrun
      exact ⟨r, fun b hb => r.truth hb, r.isBit_of_check henv hcode hpart hbefore hs hrun⟩
    · intro e pending stack' s' hleaf hcode hbool hrun
      obtain ⟨after, hcheck, hresult⟩ := FunctionLowering.leaf_flags htidy hleaf hcode
      obtain ⟨hflags, -⟩ := BitContext.check_sound henv hcheck .nil hstate hrun
      rw [hresult e rfl hbool] at hflags
      rcases hflags with _ | ⟨hbit, ⟨⟩⟩
      exact ⟨_, rfl, hbit rfl⟩

theorem Environment.silent_compares : silent.floats.Compares := fun _ _ _ _ => .inl rfl

theorem BitContext.respects_silent (Δ : BitContext) : Δ.Respects .silent :=
  ⟨Environment.silent_compares, fun _ _ _ _ _ _ _ _ _ _ _ h => by cases h⟩

/-- `fun cast() { let b: bool = 5; true && b; }` -/
def ballot : Module where
  name := "ballot"
  items := [3]
  arena := {
    exprs := #[.int 5, .bool true, .ident "b", .binary .and 1 2]
    stmts := #[
      .letting ⟨"b", some .bool, 0, false⟩,
      .expr 3,
      .block [0, 1],
      .function ⟨"cast", [], .void, 2, false⟩] }

namespace ballot

def entry : FunctionEntry := ⟨⟨[], .void⟩, false, 3⟩

def info : ModuleInfo where
  name := "ballot"
  functions := ⟨[("cast", entry)]⟩
  data := { base := 16, cursor := 16 }

theorem extract_eq : ballot.extract 16 = .ok info := by decide +kernel

def letCode : Code := .ofList [.intConst 5, .localSet "b"]

def andCode : Code :=
  .one (.intConst 1) ++ .ifElse (.one (.localGet "b")) (.one (.intConst 0))

def declared : Frame where
  name := "cast"
  result := .void
  locals := ⟨[("b", ⟨"b", .localVar, .bool⟩)]⟩

theorem declares : declareLocals info ballot.arena 2 { name := "cast", result := .void } =
    .ok () declared :=
  FrameM.result?_eq_some.mp (by decide +kernel)

theorem letting_lowers {tail : Bool} : Lowers info ballot.arena [0] tail
    ⟨declared.hideLocals, {}⟩ (.run letCode .done) ⟨declared, {}⟩ := by
  have hs : ballot.arena.stmt? 0 = some (.letting ⟨"b", some .bool, 0, false⟩) := rfl
  exact .letting hs (by decide +kernel)

theorem expr_lowers {tail : Bool} : Lowers info ballot.arena [1] tail ⟨declared, {}⟩
    (.run (andCode ++ .one .drop) .done) ⟨declared, {}⟩ := .expr rfl (by decide +kernel)

def cast : Wat.Func where
  name := "cast"
  exported := false
  encoded := "_v"
  params := []
  result := none
  locals := [("b", .i32)]
  body := .run letCode (.run (andCode ++ .one .drop) .done)

def lowering : FunctionLowering info ballot.arena "cast" entry cast where
  decl := ⟨"cast", [], .void, 2, false⟩
  params := { name := "cast", result := .void }
  declared := declared
  labels := {}
  body := .run letCode .done ++ .run (andCode ++ .one .drop) .done
  after := ⟨declared, {}⟩
  decl_eq := rfl
  params_eq := rfl
  declared_eq := declares
  lowers := .block rfl (by decide) (.cons letting_lowers expr_lowers)
  func_eq := rfl

def start : MachineState := ⟨fun _ => 0, ⟨65536, fun _ => 0⟩⟩

/-- After the `let`. -/
def given : MachineState := start.setLocal "b" 5

end ballot

/-- `fun agree(p: bool, q: bool): bool { p = p || q; return p && q; }` -/
def jury : Module where
  name := "jury"
  items := [3]
  arena := {
    exprs := #[.ident "p", .ident "q", .binary .or 0 1, .assign 0 2, .binary .and 0 1]
    stmts := #[
      .expr 3,
      .ret (some 4),
      .block [0, 1],
      .function ⟨"agree", [⟨"p", .bool⟩, ⟨"q", .bool⟩], .bool, 2, false⟩] }

namespace jury

def entry : FunctionEntry := ⟨⟨[.bool, .bool], .bool⟩, false, 3⟩

def info : ModuleInfo where
  name := "jury"
  functions := ⟨[("agree", entry)]⟩
  data := { base := 16, cursor := 16 }

theorem extract_eq : jury.extract 16 = .ok info := by decide +kernel

def setCode : Code :=
  .one (.localGet "p") ++ .ifElse (.one (.intConst 1)) (.one (.localGet "q")) ++
    .one (.localSet "p")

def andCode : Code :=
  .one (.localGet "p") ++ .ifElse (.one (.localGet "q")) (.one (.intConst 0))

def declared : Frame where
  name := "agree"
  result := .bool
  params := ⟨[("p", ⟨"p", .param, .bool⟩), ("q", ⟨"q", .param, .bool⟩)]⟩

theorem declares : declareLocals info jury.arena 2 declared = .ok () declared :=
  FrameM.result?_eq_some.mp (by decide +kernel)

def agree : Wat.Func where
  name := "agree"
  exported := false
  encoded := entry.signature.encoded
  params := [("p", .i32), ("q", .i32)]
  result := some .i32
  locals := []
  body := .run setCode (.ret andCode .done)

def lowering : FunctionLowering info jury.arena "agree" entry agree where
  decl := ⟨"agree", [⟨"p", .bool⟩, ⟨"q", .bool⟩], .bool, 2, false⟩
  params := declared
  declared := declared
  labels := {}
  body := .run setCode .done ++ .ret andCode .done
  after := ⟨declared, {}⟩
  decl_eq := rfl
  params_eq := by decide +kernel
  declared_eq := declares
  lowers := .block rfl (by decide)
    (.cons (.expr rfl (by decide +kernel)) (.ret rfl (by decide +kernel)))
  func_eq := by decide +kernel

section Leaves

variable (pending : List String)

theorem lookup_eq {x : String} (hx : x = "p" ∨ x = "q") :
    (lowering.scope pending).lookup x = .ok ⟨x, .param, .bool⟩ := by
  have hvisible : { declared with pending }.visibleLocal? x = none := by
    unfold Frame.visibleLocal?
    split <;> rfl
  simp only [Scope.lookup, Scope.lookupLocal?, FunctionLowering.scope]
  rw [show lowering.declared = declared from rfl, hvisible]
  rcases hx with rfl | rfl <;> rfl

theorem denoted?_eq {id : ExprId} {x : String} (hx : x = "p" ∨ x = "q")
    (he : jury.arena.expr? id = some (.ident x)) :
    (lowering.scope pending).denoted? id = some ⟨x, .param, .bool⟩ := by
  have he : (lowering.scope pending).arena.expr? id = some (.ident x) := he
  simp [Scope.denoted?, he, lookup_eq pending hx, Except.toOption]

theorem bitForm_eq {id : ExprId} {x : String} (hx : x = "p" ∨ x = "q")
    (he : jury.arena.expr? id = some (.ident x)) : (lowering.scope pending).bitForm id = true := by
  have he' : (lowering.scope pending).arena.expr? id = some (.ident x) := he
  have hlane : (lowering.scope pending).laneOf id = .ok .bool := by
    rw [Scope.laneOf_ident he', lookup_eq pending hx]
    rfl
  simp only [Scope.bitForm, hlane, he', denoted?_eq pending hx he, Except.toOption]
  rfl

theorem bitForm_logical {id : ExprId} {op : BinaryOp} (hop : op.isLogical = true)
    (he : jury.arena.expr? id = some (.binary op 0 1)) :
    (lowering.scope pending).bitForm id = true := by
  have he : (lowering.scope pending).arena.expr? id = some (.binary op 0 1) := he
  have hlane : (lowering.scope pending).laneOf id = .ok .bool := by
    rw [Scope.laneOf_eq (Module.descending_of_validate (m := jury) rfl) he]
    simp only [Scope.laneOfStep, Scope.expr_eq_ok.mpr he, ok_bind, hop, Bool.or_true,
      if_true]
  simp [Scope.bitForm, hlane, he, hop, Except.toOption, Lane.isFloat]

theorem keeps (inner : ExprId) : (lowering.scope pending).keepsBits inner = true := by
  have hright : (lowering.scope pending).bitForm 1 = true := bitForm_eq pending (.inr rfl) rfl
  have hor : (lowering.scope pending).arena.expr? 2 = some (.binary .or 0 1) := rfl
  have hassign : (lowering.scope pending).arena.expr? 3 = some (.assign 0 2) := rfl
  have hand : (lowering.scope pending).arena.expr? 4 = some (.binary .and 0 1) := rfl
  have hgives : (lowering.scope pending).givesBit 2 = true := bitForm_logical pending rfl rfl
  rcases inner with _ | _ | _ | _ | _ | inner
  · rfl
  · rfl
  · simp [Scope.keepsBits, hor, hright]
  · simp [Scope.keepsBits, hassign, hgives]
  · simp [Scope.keepsBits, hand, hright]
  · rfl

theorem noVoidCall (id : ExprId) : (lowering.scope pending).NoVoidCall id := by
  intro inner callee args s _ hinner _
  rcases inner with _ | _ | _ | _ | _ | inner <;> cases hinner

end Leaves

theorem leaves_eq : Source.leaves jury.arena 2 = [.effect 3, .result 4] := by decide +kernel

theorem leavesTidy : lowering.LeavesTidy := by
  intro leaf hleaf pending code _
  rcases List.mem_pair.mp (leaves_eq ▸ hleaf) with rfl | rfl
  · exact ⟨fun inner _ => keeps pending inner, fun _ _ child _ => noVoidCall pending child⟩
  · exact ⟨⟨fun inner _ => keeps pending inner, noVoidCall pending 4⟩,
      fun _ => bitForm_logical pending rfl rfl⟩

/-- `q` holds. -/
def start : MachineState := ballot.start.setLocal "q" 1

/-- After the assignment. -/
def given : MachineState := start.setLocal "p" 1

theorem start_holds : lowering.bits.Holds start where
  locals x _ := by
    simp only [start, MachineState.setLocal, Store.set]
    split
    · exact .inr rfl
    · exact .inl rfl
  globals _ _ := .inl rfl

end jury

/-- The `&&` of `cast` leaves five, because its right operand does. That of `agree` leaves one. -/
theorem cast_leaves_five :
    (ballot.extract 16 = .ok ballot.info ∧ ballot.lowering.bits.Holds ballot.start ∧
      ballot.cast.body.Starts (runner .silent) ballot.start
        (.compute (ballot.andCode ++ .one .drop)) ballot.given ∧
      (ballot.andCode ++ .one .drop).Enters .silent [] ballot.given ballot.andCode [] ballot.given ∧
      ∃ r : LogicalRun (ballot.lowering.scope []) .silent .and 1 2 [] ballot.given [5] ballot.given,
        r.Combines ∧ ∃ w, r.rightValue? = some w ∧ r.rightLane ≠ .int ∧ r.rightLane ≠ .float ∧
          ¬ w.IsBit) ∧
      jury.extract 16 = .ok jury.info ∧ jury.lowering.LeavesTidy ∧
        jury.lowering.bits.Holds jury.start ∧
        jury.agree.body.Starts (runner .silent) jury.start (.compute jury.andCode) jury.given ∧
        ∃ r : LogicalRun (jury.lowering.scope []) .silent .and 0 1 [] jury.given [1] jury.given,
          r.Combines ∧ r.value.IsBit := by
  have hballot : Scope.LogicalCode (ballot.lowering.scope []) 3 .and 1 2 ballot.andCode :=
    ⟨rfl, rfl, by decide +kernel⟩
  have hjury : Scope.LogicalCode (jury.lowering.scope []) 4 .and 0 1 jury.andCode :=
    ⟨rfl, rfl, by decide +kernel⟩
  have hstarts : jury.agree.body.Starts (runner .silent) jury.start (.compute jury.andCode)
      jury.given := ⟨0, [.compute jury.setCode], [], rfl, rfl⟩
  refine ⟨⟨ballot.extract_eq, ⟨fun _ _ => .inl rfl, fun _ _ => .inl rfl⟩, ?_, ?_, ?_⟩,
    jury.extract_eq, jury.leavesTidy, jury.start_holds, hstarts, ?_⟩
  · exact ⟨0, [.compute ballot.letCode], [], rfl, rfl⟩
  · exact .front ..
  · obtain ⟨r, hcombines, hiff⟩ := (logical_values_are_bits_iff ballot.lowering
      Environment.silent_compares).1 _ _ _ _ _ _ hballot [] ballot.given [5] ballot.given rfl
    obtain ⟨hvalue, -⟩ := List.cons.inj r.stack_eq
    have hfive : ¬ r.value.IsBit := by
      rw [← hvalue]
      decide
    rw [hiff] at hfive
    push Not at hfive
    exact ⟨r, hcombines, hfive⟩
  · obtain ⟨hruns, -⟩ := (logical_values_are_bits_iff jury.lowering
      Environment.silent_compares).2 jury.leavesTidy (BitContext.respects_silent _) jury.start
      jury.start_holds
    have henters := Code.Enters.front .silent jury.andCode .nil [] jury.given
    exact (hruns _ _ hstarts).1 _ _ _ _ _ _ hjury [] jury.given [1] jury.given henters rfl

end WasmBackend
