import Mathlib.Data.List.Forall2
import WasmBackend.Proofs.Control.Replay
import WasmBackend.Proofs.Memory.Machine
import WasmBackend.Proofs.Stack.Validation

/-!
# Words that are zero or one

A boolean travels as a word, and the target does not ask that it be zero or one. A `BitContext`
names the variables of which this is assumed, and the functions that return such a word if they are
given such words. `BitContext.check` follows what is known of the words on the stack. It refuses
code that puts anything else into such a variable or passes anything else to such a function, and
choices that may leave anything else.

Code that is not refused keeps the assumption, and leaves what it is said to leave (`check_sound`).
This holds for every part of the code that is entered on the way (`Code.Enters`), and for all pieces
of the body of a function, however it runs (`Body.exec_holds`). Which variables and functions
deserve the assumption is left open.
-/

namespace WasmBackend

/-! ## Bits -/

def Word.IsBit (w : Word) : Prop := w = 0 ∨ w = 1

instance (w : Word) : Decidable w.IsBit := inferInstanceAs (Decidable (_ ∨ _))

theorem Word.isBit_ofBool (b : Bool) : (Word.ofBool b).IsBit := by
  cases b
  · exact .inl rfl
  · exact .inr rfl

def IntOp.compares : IntOp → Bool
  | .eq => true
  | .ne => true
  | .ltS => true
  | .leS => true
  | .gtS => true
  | .geS => true
  | _ => false

theorem IntOp.apply_isBit {op : IntOp} (h : op.compares = true) {a b w : Word}
    (hw : op.apply a b = some w) : w.IsBit := by
  cases op <;> first | (cases hw; exact Word.isBit_ofBool _) | cases h

/-- Comparisons of floats give zero or one. -/
def FloatUnit.Compares (u : FloatUnit) : Prop :=
  ∀ op a b, FloatOp.result op = .i32 → (u.binary op a b).IsBit

/-- The words of which a flag is set are zero or one. -/
def Flagged (flags : List Bool) (stack : List Word) : Prop :=
  List.Forall₂ (fun flag (w : Word) => flag = true → w.IsBit) flags stack

theorem Flagged.one {flag : Bool} {w : Word} (h : flag = true → w.IsBit) : Flagged [flag] [w] :=
  .cons h .nil

/-- Nothing is said of a word without a flag. -/
theorem Flagged.any (w : Word) : Flagged [false] [w] := .one fun h => by cases h

theorem Flagged.append {flags flags' : List Bool} {stack stack' : List Word}
    (h : Flagged flags stack) (h' : Flagged flags' stack') :
    Flagged (flags ++ flags') (stack ++ stack') := List.rel_append h h'

/-! ## The test -/

/-- The variables that are assumed to hold bits, and for functions the arguments from the last to
the first that have to be bits, and the results that are. -/
structure BitContext where
  locals : String → Bool
  globals : String → Bool
  functions : String → Option (List Bool × List Bool)

namespace BitContext

variable (Δ : BitContext)

/-- There are bits where they are assumed. Functions are not part of the state. -/
structure Holds (state : MachineState) : Prop where
  locals : ∀ x, Δ.locals x = true → (state.registers (.localVar x)).IsBit
  globals : ∀ x, Δ.globals x = true → (state.registers (.globalVar x)).IsBit

/-- The operands that have to be bits and the results that are, both from the top. -/
def type? : Instr → Option (List Bool × List Bool)
  | .intConst n => some ([], [n == 0 || n == 1])
  | .floatConst _ => some ([], [false])
  | .intBinary op => some ([false, false], [op.compares])
  | .floatBinary op => some ([false, false], [op.result == .i32])
  | .intEqz => some ([false], [true])
  | .floatNeg => some ([false], [false])
  | .floatOfInt => some ([false], [false])
  | .intOfFloat => some ([false], [false])
  | .load _ _ => some ([false], [false])
  | .store _ _ => some ([false, false], [])
  | .localGet x => some ([], [Δ.locals x])
  | .localSet x => some ([Δ.locals x], [])
  | .localTee x => some ([Δ.locals x], [Δ.locals x])
  | .globalGet x => some ([], [Δ.globals x])
  | .globalSet x => some ([Δ.globals x], [])
  | .call name => Δ.functions name
  | .drop => some ([false], [])
  | _ => none

/-- Takes operands off the stack. A bit will do where any word does. -/
def pop : List Bool → List Bool → Option (List Bool)
  | [], flags => some flags
  | _ :: _, [] => none
  | want :: wants, flag :: flags => if !want || flag then pop wants flags else none

/-- The stack after an instruction: for each value, whether it is known to be a bit. -/
def step (i : Instr) (flags : List Bool) : Option (List Bool) :=
  (Δ.type? i).bind fun t => (pop t.1 flags).map (t.2 ++ ·)

@[simp] theorem step_intConst (n : Int) (flags : List Bool) :
    Δ.step (.intConst n) flags = some ((n == 0 || n == 1) :: flags) := rfl

@[simp] theorem step_floatConst (x : FloatLiteral) (flags : List Bool) :
    Δ.step (.floatConst x) flags = some (false :: flags) := rfl

@[simp] theorem step_intBinary (op : IntOp) (x y : Bool) (flags : List Bool) :
    Δ.step (.intBinary op) (x :: y :: flags) = some (op.compares :: flags) := rfl

@[simp] theorem step_floatBinary (op : FloatOp) (x y : Bool) (flags : List Bool) :
    Δ.step (.floatBinary op) (x :: y :: flags) = some ((op.result == .i32) :: flags) := rfl

@[simp] theorem step_store (s : Scalar) (offset : Nat) (x y : Bool) (flags : List Bool) :
    Δ.step (.store s offset) (x :: y :: flags) = some flags := rfl

/-- What is known of the stack after the code. Both arms of a choice have to leave a bit. -/
def check : Code → List Bool → Option (List Bool)
  | .nil, flags => some flags
  | .instr i rest, flags => (Δ.step i flags).bind (check rest)
  | .choose thenCode elseCode rest, _ :: flags =>
    if check thenCode [] = some [true] ∧ check elseCode [] = some [true] then
      check rest (true :: flags)
    else none
  | .choose _ _ _, [] => none

theorem check_append (a b : Code) (flags : List Bool) :
    Δ.check (a ++ b) flags = (Δ.check a flags).bind (Δ.check b) := by
  have happ : ∀ c d : Code, c ++ d = c.append d := fun _ _ => rfl
  induction a generalizing flags with
  | nil => rfl
  | instr i rest ih =>
    simp only [happ, Code.append, check] at ih ⊢
    cases Δ.step i flags with
    | none => rfl
    | some flags => exact ih flags
  | choose thenCode elseCode rest _ _ ih =>
    simp only [happ, Code.append] at ih ⊢
    cases flags with
    | nil => rfl
    | cons flag flags =>
      simp only [check]
      split
      · exact ih _
      · rfl

@[simp] theorem check_one (i : Instr) (flags : List Bool) :
    Δ.check (.one i) flags = Δ.step i flags := by
  simp [Code.one, check]

/-! ## What the test ensures -/

variable {Δ} {env : Environment}

theorem Holds.setLocal {state : MachineState} (h : Δ.Holds state) {x : String} {w : Word}
    (hw : Δ.locals x = true → w.IsBit) : Δ.Holds (state.setLocal x w) where
  locals y hy := by
    simp only [MachineState.setLocal, Store.set, Register.localVar.injEq]
    split
    · next heq => exact hw (heq ▸ hy)
    · exact h.locals y hy
  globals y hy := h.globals y hy

theorem Holds.setGlobal {state : MachineState} (h : Δ.Holds state) {x : String} {w : Word}
    (hw : Δ.globals x = true → w.IsBit) : Δ.Holds (state.setGlobal x w) where
  locals y hy := h.locals y hy
  globals y hy := by
    simp only [MachineState.setGlobal, Store.set, Register.globalVar.injEq]
    split
    · next heq => exact hw (heq ▸ hy)
    · exact h.globals y hy

theorem Holds.withMemory {state : MachineState} (h : Δ.Holds state) (memory : Memory) :
    Δ.Holds { state with memory := memory } := ⟨h.locals, h.globals⟩

/-- What is taken off a stack is what was wanted. -/
theorem pop_flagged {wants flags rest : List Bool} (h : pop wants flags = some rest)
    {stack : List Word} (hstack : Flagged flags stack) :
    ∃ args below, stack = args ++ below ∧ Flagged wants args ∧ Flagged rest below := by
  induction wants generalizing flags stack with
  | nil =>
    cases h
    exact ⟨[], stack, rfl, .nil, hstack⟩
  | cons want wants ih =>
    cases hstack with
    | nil => cases h
    | @cons flag w flags stack hw hstack =>
      obtain ⟨hwant, hrest⟩ := Option.ite_none_right_eq_some.mp h
      obtain ⟨args, below, rfl, hargs, hbelow⟩ := ih hrest hstack
      refine ⟨w :: args, below, rfl, .cons (fun hset => hw ?_) hargs, hbelow⟩
      simpa [hset] using hwant

/-- The environment does what is assumed of it: float comparisons give bits, and functions give the
bits they are said to give and leave variables that hold bits with bits. -/
structure Respects (Δ : BitContext) (env : Environment) : Prop where
  floats : env.floats.Compares
  call : ∀ name wants gives, Δ.functions name = some (wants, gives) →
    ∀ args below state stack' state', Flagged wants args → Δ.Holds state →
      env.call name (args ++ below) state = .ok (stack', state') →
      ∃ results, stack' = results ++ below ∧ Flagged gives results ∧ Δ.Holds state'

/-- An instruction that is given the bits it wants gives those it is said to give. -/
theorem perform_flagged (henv : Δ.Respects env) {i : Instr} {wants gives : List Bool}
    (hi : Δ.type? i = some (wants, gives)) {args below stack' : List Word}
    {state state' : MachineState} (hargs : Flagged wants args) (hstate : Δ.Holds state)
    (h : i.perform env (args ++ below) state = .ok (stack', state')) :
    ∃ results, stack' = results ++ below ∧ Flagged gives results ∧ Δ.Holds state' := by
  cases i with
  | call name => exact henv.call name wants gives hi args below state stack' state' hargs hstate h
  | intConst n =>
    cases hi
    cases hargs
    cases h
    refine ⟨[_], rfl, .one fun hset => ?_, hstate⟩
    rcases (by simpa using hset : n = 0 ∨ n = 1) with rfl | rfl
    · exact .inl rfl
    · exact .inr rfl
  | floatConst x =>
    cases hi
    cases hargs
    cases h
    exact ⟨[_], rfl, .any _, hstate⟩
  | localGet x =>
    cases hi
    cases hargs
    cases h
    exact ⟨[_], rfl, .one (hstate.locals x), hstate⟩
  | globalGet x =>
    cases hi
    cases hargs
    cases h
    exact ⟨[_], rfl, .one (hstate.globals x), hstate⟩
  | floatNeg | floatOfInt =>
    cases hi
    rcases hargs with _ | ⟨-, ⟨⟩⟩
    cases h
    exact ⟨[_], rfl, .any _, hstate⟩
  | intEqz =>
    cases hi
    rcases hargs with _ | ⟨-, ⟨⟩⟩
    cases h
    exact ⟨[_], rfl, .one fun _ => Word.isBit_ofBool _, hstate⟩
  | localTee x =>
    cases hi
    rcases hargs with _ | ⟨hw, ⟨⟩⟩
    cases h
    exact ⟨[_], rfl, .one hw, hstate.setLocal hw⟩
  | localSet x =>
    cases hi
    rcases hargs with _ | ⟨hw, ⟨⟩⟩
    cases h
    exact ⟨[], rfl, .nil, hstate.setLocal hw⟩
  | globalSet x =>
    cases hi
    rcases hargs with _ | ⟨hw, ⟨⟩⟩
    cases h
    exact ⟨[], rfl, .nil, hstate.setGlobal hw⟩
  | drop =>
    cases hi
    rcases hargs with _ | ⟨-, ⟨⟩⟩
    cases h
    exact ⟨[], rfl, .nil, hstate⟩
  | intBinary op =>
    cases hi
    rcases hargs with _ | ⟨-, _ | ⟨-, ⟨⟩⟩⟩
    next b a =>
      obtain ⟨c, hc, heq⟩ := ExecResult.map_ok.mp h
      cases heq
      simp only [List.cons_append, List.nil_append, Instr.exec] at hc
      split at hc
      · next w hw =>
        cases hc
        exact ⟨[w], rfl, .one fun hset => IntOp.apply_isBit hset hw, hstate⟩
      · cases hc
  | floatBinary op =>
    cases hi
    rcases hargs with _ | ⟨-, _ | ⟨-, ⟨⟩⟩⟩
    cases h
    exact ⟨[_], rfl, .one fun hset => henv.floats op _ _ (by simpa using hset), hstate⟩
  | intOfFloat =>
    cases hi
    rcases hargs with _ | ⟨-, ⟨⟩⟩
    simp only [List.cons_append, List.nil_append, Instr.perform] at h
    split at h
    · cases h
      exact ⟨[_], rfl, .any _, hstate⟩
    · cases h
  | load s offset =>
    cases hi
    rcases hargs with _ | ⟨-, ⟨⟩⟩
    obtain ⟨w, -, heq⟩ := ExecResult.map_ok.mp h
    cases heq
    exact ⟨[w], rfl, .any _, hstate⟩
  | store s offset =>
    cases hi
    rcases hargs with _ | ⟨-, _ | ⟨-, ⟨⟩⟩⟩
    obtain ⟨memory, -, heq⟩ := ExecResult.map_ok.mp h
    cases heq
    exact ⟨[], rfl, .nil, hstate.withMemory memory⟩
  | branch _ | branchIf _ | ret | unreachable => cases hi

/-- Code that is not refused leaves what it is said to leave, and bits where bits are assumed. -/
theorem check_sound (henv : Δ.Respects env) {code : Code} {flags flags' : List Bool}
    (hcheck : Δ.check code flags = some flags') {stack stack' : List Word}
    {state state' : MachineState} (hstack : Flagged flags stack) (hstate : Δ.Holds state)
    (h : code.execute env stack state = .ok (stack', state')) :
    Flagged flags' stack' ∧ Δ.Holds state' := by
  induction code generalizing flags flags' stack stack' state state' with
  | nil =>
    cases hcheck
    cases h
    exact ⟨hstack, hstate⟩
  | instr i rest ih =>
    obtain ⟨between, hstep, hrest⟩ := Option.bind_eq_some_iff.mp hcheck
    obtain ⟨⟨wants, gives⟩, hi, hpop⟩ := Option.bind_eq_some_iff.mp hstep
    obtain ⟨left, hleft, rfl⟩ := Option.map_eq_some_iff.mp hpop
    obtain ⟨args, below, rfl, hargs, hbelow⟩ := pop_flagged hleft hstack
    obtain ⟨⟨mid, state₁⟩, hperform, h⟩ := ExecResult.bind_ok.mp h
    obtain ⟨results, rfl, hresults, hstate₁⟩ := perform_flagged henv hi hargs hstate hperform
    exact ih hrest (hresults.append hbelow) hstate₁ h
  | choose thenCode elseCode rest ihThen ihElse ih =>
    cases hstack with
    | nil => cases hcheck
    | @cons flag w flags below _ hbelow =>
      obtain ⟨⟨hthen, helse⟩, hrest⟩ := Option.ite_none_right_eq_some.mp hcheck
      obtain ⟨⟨mid, state₁⟩, harm, h⟩ := ExecResult.bind_ok.mp h
      obtain ⟨⟨inner, state₂⟩, harm, hover⟩ := ExecResult.bind_ok.mp harm
      have hinner : Flagged [true] inner ∧ Δ.Holds state₂ := by
        split at harm
        · exact ihElse helse .nil hstate harm
        · exact ihThen hthen .nil hstate harm
      obtain ⟨hinner, hstate₂⟩ := hinner
      rcases hinner with _ | ⟨hv, ⟨⟩⟩
      cases hover
      exact ih hrest (.cons hv hbelow) hstate₂ h

end BitContext

/-! ## Parts of code -/

/-- Running the code in the first state comes to the beginning of this part of it in the second: the
part follows what has been run, or it is inside the arm of a choice that is taken there. -/
inductive Code.Enters (env : Environment) : Code → List Word → MachineState →
    Code → List Word → MachineState → Prop
  | part {a b rest : Code} {stack stack' : List Word} {state state' : MachineState}
      (ha : a.execute env stack state = .ok (stack', state')) :
      Enters env (a ++ (b ++ rest)) stack state b stack' state'
  | arm {a thenCode elseCode rest b : Code} {w : Word} {stack below stack' : List Word}
      {state state₁ state' : MachineState}
      (ha : a.execute env stack state = .ok (w :: below, state₁))
      (harm : Enters env (if w = 0 then elseCode else thenCode) [] state₁ b stack' state') :
      Enters env (a ++ .choose thenCode elseCode rest) stack state b stack' state'

/-- The first part is entered as the whole is. -/
theorem Code.Enters.front (env : Environment) (a b : Code) (stack : List Word)
    (state : MachineState) : (a ++ b).Enters env stack state a stack state := by
  show (Code.nil ++ (a ++ b)).Enters env stack state a stack state
  exact .part rfl

/-- Whatever part of accepted code is entered, it is accepted too, on the stack that it finds. -/
theorem Code.Enters.check {Δ : BitContext} {env : Environment} (henv : Δ.Respects env)
    {code part : Code} {stack stack' : List Word} {state state' : MachineState}
    (h : code.Enters env stack state part stack' state') {flags flags' : List Bool}
    (hcheck : Δ.check code flags = some flags') (hstack : Flagged flags stack)
    (hstate : Δ.Holds state) :
    Δ.Holds state' ∧ ∃ before after, Flagged before stack' ∧ Δ.check part before = some after := by
  induction h generalizing flags flags' with
  | part ha =>
    rw [Δ.check_append] at hcheck
    obtain ⟨before, hbefore, hcheck⟩ := Option.bind_eq_some_iff.mp hcheck
    obtain ⟨hflags, hstate'⟩ := BitContext.check_sound henv hbefore hstack hstate ha
    rw [Δ.check_append] at hcheck
    obtain ⟨after, hafter, -⟩ := Option.bind_eq_some_iff.mp hcheck
    exact ⟨hstate', before, after, hflags, hafter⟩
  | @arm _ thenCode elseCode _ _ w _ _ _ _ _ _ ha _ ih =>
    rw [Δ.check_append] at hcheck
    obtain ⟨before, hbefore, hcheck⟩ := Option.bind_eq_some_iff.mp hcheck
    obtain ⟨hflags, hstate₁⟩ := BitContext.check_sound henv hbefore hstack hstate ha
    cases hflags with
    | cons _ _ =>
      obtain ⟨⟨hthen, helse⟩, -⟩ := Option.ite_none_right_eq_some.mp hcheck
      have harm : Δ.check (if w = 0 then elseCode else thenCode) [] = some [true] := by
        split
        · exact helse
        · exact hthen
      exact ih harm .nil hstate₁

/-! ## Bodies -/

/-- Each piece of code is one step. What it leaves on the stack is the value of the function, or is
tested. -/
def MachineState.runner (env : Environment) : AtomicMachine MachineState where
  compute code state := (code.execute env [] state).toOption.map Prod.snd
  test code state :=
    match code.execute env [] state with
    | .ok (w :: _, after) => some (after, w != 0)
    | _ => none

open MachineState (runner)

theorem MachineState.runner_take {env : Environment} {step : Step} {state state' : MachineState}
    (h : (runner env).take step state = some state') :
    ∃ stack', step.code.execute env [] state = .ok (stack', state') := by
  cases step with
  | compute code =>
    obtain ⟨⟨stack', _⟩, hcode, rfl⟩ := Option.map_eq_some_iff.mp h
    cases hrun : code.execute env [] state with
    | error fault => simp [hrun, Except.toOption] at hcode
    | ok r =>
      simp only [hrun, Except.toOption, Option.some.injEq] at hcode
      exact ⟨stack', hcode ▸ hrun⟩
  | test code =>
    obtain ⟨⟨_, holds⟩, htest, rfl⟩ := Option.map_eq_some_iff.mp h
    simp only [runner] at htest
    split at htest
    · next hcode =>
      cases htest
      exact ⟨_, hcode⟩
    · cases htest

/-- In a body none of whose pieces is refused, bits are where they are assumed whenever a piece is
started, and when a run of the body ends. -/
theorem Body.exec_holds {Δ : BitContext} {env : Environment} (henv : Δ.Respects env) {b : Body}
    (hcodes : ∀ code ∈ b.codes, ∃ flags, Δ.check code [] = some flags) {start : MachineState}
    (hstart : Δ.Holds start) :
    (∀ step state, b.Starts (runner env) start step state →
      step.code ∈ b.codes ∧ Δ.Holds state) ∧
      ∀ n state, (b.exec (runner env) n start).outcome.state? = some state → Δ.Holds state := by
  refine Body.exec_induction (fun step state state' hmem hstate htake => ?_) hstart
  obtain ⟨stack', hrun⟩ := MachineState.runner_take htake
  obtain ⟨flags, hcheck⟩ := hcodes _ hmem
  exact (BitContext.check_sound henv hcheck .nil hstate hrun).2

end WasmBackend
