import WasmBackend.Proofs.Control.Simulation

/-!
# Control flow is preserved

What the simulation says about whole functions, with the bounds gone. A run *ends* if it does so
under some bound, and it *runs forever* if it does so under none.

**Without a result** a function's code does what its body does: the same steps, then the same end,
or none on either side.

**With a result** that is so for every run that leaves no conditional of which `returns` holds. Such
a conditional is closed with `unreachable`, but `returns` takes the body of a loop for the loop, and
a loop may go round no time at all. A run that comes out of one traps in the code, whatever the body
would have done next. The theorem says that this is the only way for a function that returns to go
wrong.

What a step computes is left open throughout.
-/

namespace WasmBackend

open Lower

/-! ## Runs without bounds -/

/-- How a function can end. -/
inductive Ending (σ : Type) where
  /-- At the end of its body. -/
  | finished (s : σ)
  | returned (s : σ)
  /-- In a step that does not come back. -/
  | aborted

/-- How the run of a function ended. A jump that leaves the body is no ending. -/
def RunOutcome.ending? {ι σ : Type} : RunOutcome ι σ → Option (Ending σ)
  | .normal s => some (.finished s)
  | .returned s => some (.returned s)
  | .aborted => some .aborted
  | _ => none

namespace Run

variable {ε ι σ : Type}

/-- The run has these events and this end, if only it is given enough rounds. -/
def Ends (run : Nat → Run ε ι σ) (events : List ε) (e : Ending σ) : Prop :=
  ∃ n, (run n).events = events ∧ (run n).outcome.ending? = some e

/-- No number of rounds is enough. -/
def Forever (run : Nat → Run ε ι σ) : Prop := ∀ n, (run n).outcome = .unfinished

/-- An `unreachable` is executed. -/
def Traps (run : Nat → Run ε ι σ) : Prop := ∃ n, (run n).outcome = .trapped

/-- A run without its notes. -/
def plain (r : Run Event ι σ) : Run Step ι σ := ⟨r.steps, r.outcome⟩

/-- Two bounds under which a run ends give the same run. -/
theorem eq_of_ended {run : Nat → Run ε ι σ} (h : ∀ n, (run n).Extends (run (n + 1))) {n k : Nat}
    (hn : (run n).outcome ≠ .unfinished) (hk : (run k).outcome ≠ .unfinished) :
    run n = run k := by
  rcases Nat.le_total n k with hle | hle
  · exact ((extends_of_le h hle).eq_of_ended hn).symm
  · exact (extends_of_le h hle).eq_of_ended hk

end Run

namespace RunOutcome

variable {ι κ σ : Type}

theorem ending?_finished {o : RunOutcome ι σ} {s : σ} :
    o.ending? = some (.finished s) ↔ o = .normal s := by
  cases o <;> simp [ending?]

theorem ending?_returned {o : RunOutcome ι σ} {s : σ} :
    o.ending? = some (.returned s) ↔ o = .returned s := by
  cases o <;> simp [ending?]

theorem ne_unfinished_of_ending? {o : RunOutcome ι σ} {e : Ending σ} (h : o.ending? = some e) :
    o ≠ .unfinished := by
  rintro rfl
  cases h

/-- An end that is neither a jump nor a trap is one of a function, or of no function. -/
theorem ending?_or_unfinished {o : RunOutcome ι σ} (hjump : ∀ j s, o ≠ .jump j s)
    (htrapped : o ≠ .trapped) : (∃ e, o.ending? = some e) ∨ o = .unfinished := by
  cases o with
  | jump j s => exact absurd rfl (hjump j s)
  | trapped => exact absurd rfl htrapped
  | unfinished => exact Or.inr rfl
  | _ => exact Or.inl ⟨_, rfl⟩

variable (label : ι → κ) (o : RunOutcome ι σ)

@[simp] theorem relabel_ending? : (o.relabel label).ending? = o.ending? := by cases o <;> rfl

@[simp] theorem relabel_eq_unfinished : o.relabel label = .unfinished ↔ o = .unfinished := by
  cases o <;> simp [relabel]

@[simp] theorem relabel_eq_trapped : o.relabel label = .trapped ↔ o = .trapped := by
  cases o <;> simp [relabel]

end RunOutcome

/-! ## Conditionals that are left -/

namespace Run

variable {σ : Type}

/-- If no closed conditional is left, code and source take the same steps to the same end. -/
theorem lowered_of_open {closes : StmtId → Bool} (label : Jump → Label) {r : Run Event Jump σ}
    (h : ∀ id, .left id ∈ r.events → closes id = false) :
    r.lowered closes label = ⟨r.steps, r.outcome.relabel label⟩ := by
  induction r using byEvents with
  | ended o => rfl
  | after e r ih =>
    have hrest := ih fun id hid => h id (List.mem_cons_of_mem _ hid)
    cases e with
    | step s => rw [lowered_after_step, hrest]; rfl
    | left id => rw [lowered_after_left, hrest, h id List.mem_cons_self]; rfl

/-- If one is, the code traps there. -/
theorem lowered_of_left (closes : StmtId → Bool) (label : Jump → Label) {r : Run Event Jump σ}
    {id : StmtId} (hid : .left id ∈ r.events) (hcloses : closes id = true) :
    (r.lowered closes label).outcome = .trapped := by
  induction r using byEvents with
  | ended o => cases hid
  | after e r ih =>
    cases e with
    | step s =>
      rw [lowered_after_step]
      exact ih (by simpa using hid)
    | left id' =>
      rw [lowered_after_left]
      split
      · rfl
      · next hopen =>
        refine ih ?_
        rcases List.mem_cons.mp hid with heq | hid
        · cases heq
          exact absurd hcloses hopen
        · exact hid

end Run

/-! ## Functions -/

/-- Runs the body of a function. None of its locals is visible at the start. -/
def Source.run {σ : Type} (m : AtomicMachine σ) (info : ModuleInfo) (arena : Arena) (body : StmtId)
    (f : Frame) (st : σ) (n : Nat) : Run Event Jump σ :=
  exec m info arena (leafCode? info arena) body f.hideLocals n st

section Functions

variable {info : ModuleInfo} {arena : Arena} {body : StmtId} {s s' : LowerState} {code : Body}

theorem Lower.closes_void {result : Ty} (h : result.isVoid = true) (id : StmtId) :
    closes arena result id = false := by
  cases result <;> simp_all [Ty.isVoid, closes, Ty.lane, Lane.valType?]

theorem Lower.closes_nonvoid {result : Ty} (h : result.isVoid = false) (id : StmtId) :
    closes arena result id = arena.returns id := by
  have hlane : result.lane.valType?.isSome = true := by
    cases result with
    | scalar sc => cases sc <;> rfl
    | void => cases h
    | _ => rfl
  rw [closes, hlane, Bool.and_true]

variable {σ : Type} {m : AtomicMachine σ}
variable (hloops : s.frame.loops = []) (h : lowerBody info arena body s = .ok code s')

include hloops h

/-- The body of a function with a result is closed like an arm. There are no loops around it, so
where its jumps would go is open. -/
theorem lowerBody_exec (label : Jump → Label) (n : Nat) (st : σ) :
    code.exec m n st =
      ((Source.run m info arena body s.frame st n).lowered (closes arena s.frame.result)
        label).andThen (leaving !s.frame.result.isVoid) := by
  obtain ⟨inner, hinner, rfl⟩ := lowerBody_ok h
  have houtside : s.frame.hideLocals.outside = s.frame.hideLocals := by
    rw [Frame.outside, ← hloops]
    rfl
  have hexec := hinner.exec_eq (m := m) label
    (fun l hl => by simp [Frame.innermostLoop?, Frame.hideLocals, hloops] at hl) n st
  rw [Source.sequence_singleton, houtside] at hexec
  rw [hinner.result_eq]
  exact closedArm_exec m info arena hexec _

/-- Without a result, code and source keep step to the end. -/
theorem lowerBody_exec_void (hvoid : s.frame.result.isVoid = true) (label : Jump → Label) (n : Nat)
    (st : σ) :
    code.exec m n st = ⟨(Source.run m info arena body s.frame st n).steps,
      (Source.run m info arena body s.frame st n).outcome.relabel label⟩ := by
  rw [lowerBody_exec hloops h label, hvoid, Run.lowered_of_open label fun id _ =>
    closes_void hvoid id]
  exact Run.andThen_ended _

/-- No jump leaves a function: it would have to go to every label at once. -/
theorem run_ne_jump (hvoid : s.frame.result.isVoid = true) (n : Nat) (st : σ) (j : Jump) (t : σ) :
    (Source.run m info arena body s.frame st n).outcome ≠ .jump j t := by
  intro hj
  have hlabels :=
    (lowerBody_exec_void (m := m) hloops h hvoid (fun _ => ⟨.exit, 0⟩) n st).symm.trans
      (lowerBody_exec_void hloops h hvoid (fun _ => ⟨.exit, 1⟩) n st)
  simp [hj, RunOutcome.relabel] at hlabels

/-- With a result, the code keeps step as long as no returning conditional is left. -/
theorem lowerBody_exec_open (hresult : s.frame.result.isVoid = false) (label : Jump → Label)
    {n : Nat} {st : σ}
    (hopen : ∀ id, .left id ∈ (Source.run m info arena body s.frame st n).events →
      arena.returns id = false) :
    code.exec m n st = Run.andThen ⟨(Source.run m info arena body s.frame st n).steps,
      (Source.run m info arena body s.frame st n).outcome.relabel label⟩
        fun _ => .ended .trapped := by
  rw [lowerBody_exec hloops h label, hresult, Run.lowered_of_open label fun id hid =>
    (closes_nonvoid hresult id).trans (hopen id hid)]
  rfl

theorem lowerBody_exec_left (hresult : s.frame.result.isVoid = false) {n : Nat} {st : σ}
    {id : StmtId} (hid : .left id ∈ (Source.run m info arena body s.frame st n).events)
    (hreturns : arena.returns id = true) : (code.exec m n st).outcome = .trapped := by
  have htrapped := Run.lowered_of_left (closes arena s.frame.result)
    (fun _ => ⟨.exit, 0⟩) hid ((closes_nonvoid hresult id).trans hreturns)
  rw [lowerBody_exec hloops h fun _ => ⟨.exit, 0⟩, Run.andThen_of_ne (by simp [htrapped]),
    htrapped]

/-- An `unreachable` is executed where the source comes out of a conditional or of the body whose
end was taken to be out of reach. -/
theorem lowerBody_trapped_iff (hresult : s.frame.result.isVoid = false) {n : Nat} {st : σ} :
    (code.exec m n st).outcome = .trapped ↔
      (∃ t, (Source.run m info arena body s.frame st n).outcome = .normal t) ∨
        ∃ id, .left id ∈ (Source.run m info arena body s.frame st n).events ∧
          arena.returns id = true := by
  by_cases hleft : ∃ id, .left id ∈ (Source.run m info arena body s.frame st n).events ∧
      arena.returns id = true
  · obtain ⟨id, hid, hreturns⟩ := hleft
    exact iff_of_true (lowerBody_exec_left hloops h hresult hid hreturns)
      (Or.inr ⟨id, hid, hreturns⟩)
  · have hopen : ∀ id, .left id ∈ (Source.run m info arena body s.frame st n).events →
        arena.returns id = false :=
      fun id hid => Bool.eq_false_iff.mpr fun hreturns => hleft ⟨id, hid, hreturns⟩
    have hsource : (Source.run m info arena body s.frame st n).outcome ≠ .trapped :=
      Source.exec_ne_trapped m info arena _ body _ n st
    rw [lowerBody_exec_open hloops h hresult (fun _ => ⟨.exit, 0⟩) hopen, or_iff_left hleft]
    cases ho : (Source.run m info arena body s.frame st n).outcome with
    | normal t => simp [Run.andThen, RunOutcome.relabel]
    | trapped => exact absurd ho hsource
    | _ => simp [Run.andThen, RunOutcome.relabel]

end Functions

/-! ## The two theorems -/

section Main

variable {info : ModuleInfo} {arena : Arena} {body : StmtId} {s s' : LowerState} {code : Body}

/-- Computes nothing, and takes the answers to its tests from a list. -/
def answering : AtomicMachine (List Bool) where
  compute _ answers := some answers
  test
    | _, [] => none
    | _, holds :: rest => some (rest, holds)

/-- A function of two flags. -/
def flags : Frame where
  name := "f"
  result := .i32
  params := ⟨[("c", ⟨"c", .param, .i32⟩), ("d", ⟨"d", .param, .i32⟩)]⟩

/-- The code of a function without a result does what its body does: it takes the same steps and
ends in the same way and in the same state, or both run forever. A body either has one end or runs
forever, and no `unreachable` is executed. -/
theorem void_function_keeps_control_flow (hvoid : s.frame.result.isVoid = true)
    (hloops : s.frame.loops = []) (h : lowerBody info arena body s = .ok code s') {σ : Type}
    (m : AtomicMachine σ) (st : σ) :
    let source := fun n => (Source.run m info arena body s.frame st n).plain
    let target := fun n => code.exec m n st
    (∀ steps e, Run.Ends source steps e ↔ Run.Ends target steps e) ∧
      (Run.Forever source ↔ Run.Forever target) ∧
      ((∃ steps e, Run.Ends source steps e ∧
          ∀ steps' e', Run.Ends source steps' e' → steps' = steps ∧ e' = e) ∨
        Run.Forever source) ∧
      (∀ n, (source n).events = (target n).events) ∧ ¬ Run.Traps target := by
  intro source target
  have hstep : ∀ n, target n =
      ⟨(source n).events, (source n).outcome.relabel fun _ => ⟨.exit, 0⟩⟩ :=
    fun n => lowerBody_exec_void hloops h hvoid _ n st
  have htrapped : ∀ n, (source n).outcome ≠ .trapped := fun n =>
    Source.exec_ne_trapped m info arena _ body _ n st
  have hjump : ∀ n j t, (source n).outcome ≠ .jump j t := fun n =>
    run_ne_jump hloops h hvoid n st
  refine ⟨fun steps e => ?_, ?_, ?_, fun n => by rw [hstep], ?_⟩
  · simp only [Run.Ends, hstep, RunOutcome.relabel_ending?]
  · simp only [Run.Forever, hstep, RunOutcome.relabel_eq_unfinished]
  · by_cases hforever : Run.Forever source
    · exact Or.inr hforever
    · obtain ⟨n, hn⟩ := Classical.not_forall.mp hforever
      obtain ⟨e, he⟩ := (RunOutcome.ending?_or_unfinished (hjump n) (htrapped n)).resolve_right hn
      refine Or.inl ⟨_, e, ⟨n, rfl, he⟩, ?_⟩
      rintro _ e' ⟨k, rfl, hk⟩
      have heq : Source.run m info arena body s.frame st n =
          Source.run m info arena body s.frame st k :=
        Run.eq_of_ended (fun n => Source.exec_extends m info arena _ body _ n st) hn
          (RunOutcome.ne_unfinished_of_ending? hk)
      have hsource : source k = source n := congrArg Run.plain heq.symm
      rw [hsource, he] at hk
      exact ⟨congrArg Run.events hsource, (Option.some.inj hk).symm⟩
  · rintro ⟨n, hn⟩
    rw [hstep, RunOutcome.relabel_eq_trapped] at hn
    exact htrapped n hn

/-- `for (let i = 0; c; i++) { while (d) { break; } continue; }` -/
def skippingLoop : Arena where
  exprs := #[.int 0, .ident "i", .update .increment 1, .ident "c", .ident "d"]
  stmts := #[.letting ⟨"i", none, 0, false⟩, .breakLoop, .whileLoop 4 1, .continueLoop,
    .block [2, 3], .forLoop (some 0) 3 (some 2) 4]

/-- The `break` leaves the inner loop only, and `continue` comes to the update. -/
theorem skippingLoop_keeps_control_flow :
    let f := { flags with result := .void, locals := ⟨[("i", ⟨"i", .localVar, .i32⟩)]⟩ }
    ∃ code s', lowerBody (.empty "m" 16) skippingLoop 5 ⟨f, {}⟩ = .ok code s' ∧
      f.result.isVoid = true ∧ f.loops = [] ∧
      Run.Ends (fun n => code.exec answering n [true, true, false])
        [.compute (.ofList [.intConst 0, .localSet "i"]), .test (.one (.localGet "c")),
          .test (.one (.localGet "d")),
          .compute (.ofList [.localGet "i", .intConst 1, .intBinary .add, .localSet "i"]),
          .test (.one (.localGet "c"))] (.finished []) := by
  intro f
  obtain ⟨code, s', h⟩ := LowerM.exists_ok
    (x := lowerBody (.empty "m" 16) skippingLoop 5) (s := ⟨f, {}⟩) (by decide +kernel)
  refine ⟨code, s', h, rfl, rfl, ?_⟩
  refine ((void_function_keeps_control_flow rfl rfl h answering _).1 _ _).mp ⟨2, ?_, ?_⟩
  · decide +kernel
  · rw [RunOutcome.ending?_finished]
    decide +kernel

/-- The code of a function with a result returns where its body does, after the same steps and in
the same state, exactly if the body leaves no conditional on the way of which `returns` holds. It
executes an `unreachable` exactly if the body leaves such a conditional or ends without a return. -/
theorem returning_function_keeps_control_flow (hresult : s.frame.result.isVoid = false)
    (hloops : s.frame.loops = []) (h : lowerBody info arena body s = .ok code s') {σ : Type}
    (m : AtomicMachine σ) (st : σ) :
    let source := Source.run m info arena body s.frame st
    let target := fun n => code.exec m n st
    (∀ events t, Run.Ends source events (.returned t) →
      (Run.Ends target (events.filterMap Event.step?) (.returned t) ↔
        ∀ id, .left id ∈ events → arena.returns id = false)) ∧
      (Run.Traps target ↔
        (∃ events t, Run.Ends source events (.finished t)) ∨
          ∃ n id, .left id ∈ (source n).events ∧ arena.returns id = true) := by
  intro source target
  constructor
  · rintro events t ⟨n, rfl, hend⟩
    rw [RunOutcome.ending?_returned] at hend
    constructor
    · rintro ⟨k, -, hk⟩ id hid
      cases hreturns : arena.returns id with
      | false => rfl
      | true =>
        -- The code has trapped under the one bound and returned under the other.
        have htrapped : (target n).outcome = .trapped :=
          lowerBody_exec_left hloops h hresult hid hreturns
        have hended : (target n).outcome ≠ .unfinished := by
          rw [htrapped]
          rintro ⟨⟩
        have heq : target k = target n := Run.eq_of_ended (fun n => code.exec_extends m n st)
          (RunOutcome.ne_unfinished_of_ending? hk) hended
        rw [heq, htrapped] at hk
        cases hk
    · intro hopen
      have hexec : target n = _ :=
        lowerBody_exec_open hloops h hresult (fun _ => ⟨.exit, 0⟩) hopen
      refine ⟨n, ?_⟩
      rw [hexec, show (Source.run m info arena body s.frame st n).outcome = _ from hend]
      exact ⟨rfl, rfl⟩
  · simp only [Run.Traps, target, lowerBody_trapped_iff hloops h hresult, exists_or]
    refine or_congr_left ⟨?_, ?_⟩
    · rintro ⟨n, t, hn⟩
      exact ⟨_, t, n, rfl, RunOutcome.ending?_finished.mpr hn⟩
    · rintro ⟨events, t, n, -, hn⟩
      exact ⟨n, t, RunOutcome.ending?_finished.mp hn⟩

/-- `if (c) { while (d) { return 1; } } else { return 2; } return 3;` -/
def armOfLoop : Arena where
  exprs := #[.ident "c", .ident "d", .int 1, .int 2, .int 3]
  stmts := #[.ret (some 2), .whileLoop 1 0, .ret (some 3), .cond 0 1 (some 2), .ret (some 4),
    .block [3, 4]]

/-- With `c` true and `d` false the body returns 3. The code traps at the end of the first arm. -/
theorem armOfLoop_traps :
    ∃ code s', lowerBody (.empty "m" 16) armOfLoop 5 ⟨flags, {}⟩ = .ok code s' ∧
      flags.result.isVoid = false ∧ flags.loops = [] ∧
      Run.Ends (Source.run answering (.empty "m" 16) armOfLoop 5 flags [true, false])
        [.step (.test (.one (.localGet "c"))), .step (.test (.one (.localGet "d"))), .left 3,
          .step (.compute (.one (.intConst 3)))] (.returned []) ∧
      Run.Traps (fun n => code.exec answering n [true, false]) := by
  obtain ⟨code, s', h⟩ := LowerM.exists_ok
    (x := lowerBody (.empty "m" 16) armOfLoop 5) (s := ⟨flags, {}⟩) (by decide +kernel)
  refine ⟨code, s', h, rfl, rfl, ⟨1, by decide +kernel, ?_⟩, ?_⟩
  · rw [RunOutcome.ending?_returned]
    decide +kernel
  · refine (returning_function_keeps_control_flow rfl rfl h answering _).2.mpr (Or.inr ⟨1, 3, ?_⟩)
    constructor <;> decide +kernel

end Main

end WasmBackend
