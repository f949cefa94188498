import WasmBackend.Proofs.Control.Completion
import WasmBackend.Proofs.Control.Pieces

/-!
# Lowered statements against their source

A run of a statement determines the run of its code (`Run.lowered`): the same steps, with jumps
turned into branches to labels, up to the first conditional that is left although it was closed.
There the code executes `unreachable`, whatever the source does next.

**The two sides keep step.** A loop of the source and the loop that it becomes go round equally
often, so the equation holds under every bound (`Lowers.exec_eq`) and says as much about runs that
never end as about those that do.

Labels need not be fresh for this. A `break` or `continue` is caught by the innermost loop, and the
labels of one loop differ by their kind.
-/

namespace WasmBackend

/-- Where the jumps out of a loop's body go. -/
def LoopLabels.jump (l : LoopLabels) : Jump → Label
  | .exit => l.exit
  | .next => l.next

/-- An ending with its jump sent to a label. -/
def RunOutcome.relabel {ι κ σ : Type} (label : ι → κ) : RunOutcome ι σ → RunOutcome κ σ
  | .normal s => .normal s
  | .jump j s => .jump (label j) s
  | .returned s => .returned s
  | .aborted => .aborted
  | .trapped => .trapped
  | .unfinished => .unfinished

/-! ## The run of the code -/

namespace Run

variable {σ : Type}

/-- The code's run, from the events of the source and its ending. -/
def loweredFrom (closes : StmtId → Bool) (label : Jump → Label) (o : RunOutcome Jump σ) :
    List Event → Run Step Label σ
  | [] => ended (o.relabel label)
  | .step s :: rest => after [s] (loweredFrom closes label o rest)
  | .left id :: rest => if closes id then ended .trapped else loweredFrom closes label o rest

/-- What code does when its source does this. `closes` are the conditionals whose end is taken to
be out of reach. -/
def lowered (closes : StmtId → Bool) (label : Jump → Label) (r : Run Event Jump σ) :
    Run Step Label σ :=
  loweredFrom closes label r.outcome r.events

/-- A run is an ending with events put before it, one at a time. -/
@[elab_as_elim]
theorem byEvents {ε ι : Type} {motive : Run ε ι σ → Prop} (ended : ∀ o, motive (ended o))
    (after : ∀ e r, motive r → motive (after [e] r)) (r : Run ε ι σ) : motive r := by
  obtain ⟨events, o⟩ := r
  induction events with
  | nil => exact ended o
  | cons e rest ih => exact after e ⟨rest, o⟩ ih

section

variable (closes : StmtId → Bool) (label : Jump → Label)

@[simp] theorem lowered_ended (o : RunOutcome Jump σ) :
    (ended o).lowered closes label = ended (o.relabel label) := rfl

@[simp] theorem lowered_after_step (s : Step) (r : Run Event Jump σ) :
    (after [.step s] r).lowered closes label = after [s] (r.lowered closes label) := rfl

@[simp] theorem lowered_after_left (id : StmtId) (r : Run Event Jump σ) :
    (after [.left id] r).lowered closes label =
      if closes id then ended .trapped else r.lowered closes label := rfl

/-- Coming out at the end of a conditional. -/
theorem lowered_left (id : StmtId) (s : σ) :
    (⟨[.left id], .normal s⟩ : Run Event Jump σ).lowered closes label =
      if closes id then ended .trapped else ended (.normal s) := rfl

theorem lowered_andThen (r : Run Event Jump σ) (k : σ → Run Event Jump σ) :
    (r.andThen k).lowered closes label =
      (r.lowered closes label).andThen fun s => (k s).lowered closes label := by
  induction r using byEvents with
  | ended o => cases o <;> rfl
  | after e r ih =>
    cases e with
    | step s => simp only [after_andThen, lowered_after_step, ih]
    | left id =>
      simp only [after_andThen, lowered_after_left, ih]
      split <;> rfl

/-- A jump that is caught in the source is caught in the code, if no other jump of the run goes to
the same label. -/
theorem lowered_landing {label label' : Jump → Label} {j : Jump} {r : Run Event Jump σ}
    (h : ∀ j' s, r.outcome = .jump j' s → j' ≠ j → label j' ≠ label j ∧ label' j' = label j') :
    (r.lowered closes label).landing (label j) = (r.landing j).lowered closes label' := by
  induction r using byEvents with
  | ended o =>
    cases o with
    | jump j' s =>
      by_cases hj : j' = j
      · subst hj
        simp [landing, onJump, RunOutcome.relabel]
      · obtain ⟨hne, heq⟩ := h j' s rfl hj
        simp [landing, onJump, RunOutcome.relabel, hj, hne, heq, ended, lowered, loweredFrom]
    | _ => rfl
  | after e r ih =>
    cases e with
    | step s => simp only [after_landing, lowered_after_step, ih h]
    | left id =>
      simp only [after_landing, lowered_after_left]
      split
      · rfl
      · exact ih h

/-- A label to which no jump goes catches nothing. -/
theorem lowered_landing_of_ne {a : Label} (h : ∀ j, label j ≠ a) (r : Run Event Jump σ) :
    (r.lowered closes label).landing a = r.lowered closes label := by
  induction r using byEvents with
  | ended o =>
    cases o with
    | jump j s => simp [landing, onJump, RunOutcome.relabel, h j]
    | _ => rfl
  | after e r ih =>
    cases e with
    | step s => simp only [after_landing, lowered_after_step, ih]
    | left id =>
      simp only [lowered_after_left]
      split
      · rfl
      · exact ih

/-- An `unreachable` after a statement whose end is out of reach changes nothing. -/
theorem lowered_andThen_trapped {r : Run Event Jump σ} (h : ∀ s, r.outcome ≠ .normal s) :
    ((r.lowered closes label).andThen fun _ => ended .trapped) = r.lowered closes label := by
  rw [show (fun _ : σ => (ended .trapped : Run Step Label σ)) =
    fun _ => (ended .trapped : Run Event Jump σ).lowered closes label from rfl,
    ← lowered_andThen, andThen_of_ne h]

end

/-- Jumping back at the end of a body is the same as catching the jumps in it and going on. -/
theorem andThen_jump_onJump {ε ι : Type} [DecidableEq ι] (r : Run ε ι σ) (j : ι)
    (k : σ → Run ε ι σ) :
    (r.andThen fun s => ended (.jump j s)).onJump j k = (r.landing j).andThen k := by
  induction r using byEvents with
  | ended o =>
    cases o with
    | jump j' s => by_cases h : j' = j <;> simp [andThen, landing, onJump, ended, after, h]
    | normal s => simp [andThen, landing, onJump, ended, after]
    | _ => rfl
  | after e r ih => simp only [after_andThen, after_onJump, after_landing, ih]

theorem branchOn_onJump {ε ι : Type} [DecidableEq ι] (m : AtomicMachine σ) (mark : Step → ε)
    (code : Code) (s : σ) (next : Bool → σ → Run ε ι σ) (j : ι) (k : σ → Run ε ι σ) :
    (m.branchOn mark code s next).onJump j k =
      m.branchOn mark code s fun holds s => (next holds s).onJump j k := by
  unfold AtomicMachine.branchOn
  split
  · exact after_onJump _ _ _ _
  · rfl

end Run

open Lower

/-! ## Leaves -/

namespace Source

variable {σ : Type} {m : AtomicMachine σ} {code : Frame → Leaf → Option Code} {f : Frame}
variable {c : Code} (closes : StmtId → Bool) (label : Jump → Label)

theorem perform_lowered {leaf : Leaf} (h : code f leaf = some c) (hc : c ≠ .nil) (s : σ) :
    (perform m code f leaf s).lowered closes label = Body.computing m c s := by
  simp only [perform, h, Body.computing, if_neg hc, AtomicMachine.perform]
  split <;> rfl

theorem branchOn_lowered {e : ExprId} (h : code f (.condition e) = some c) (s : σ)
    (next : Bool → σ → Run Event Jump σ) :
    (branchOn m code f e s next).lowered closes label =
      m.branchOn id c s fun holds s => (next holds s).lowered closes label := by
  simp only [branchOn, h, AtomicMachine.branchOn]
  split <;> rfl

theorem perform_ne_jump (leaf : Leaf) (s : σ) (j : Jump) (s' : σ) :
    (perform m code f leaf s).outcome ≠ .jump j s' := by
  unfold perform AtomicMachine.perform
  split
  · split <;> simp
  · simp

theorem updating_ne_jump {update : Option ExprId} (s : σ) (j : Jump) (s' : σ) :
    (updating m code f update s).outcome ≠ .jump j s' := by
  cases update with
  | some e => exact perform_ne_jump (.effect e) s j s'
  | none => simp [updating]

end Source

/-! ## Loops -/

section Loops

variable {σ : Type} {m : AtomicMachine σ} {code : Frame → Leaf → Option Code} {f : Frame}
variable {cond : ExprId} {body : Nat → σ → Run Event Jump σ} {update : σ → Run Event Jump σ}
variable {closes : StmtId → Bool} {labels : LoopLabels} {c : Code} {inner step : Body}

/-- No `continue` leaves the rounds of a loop. -/
theorem rounds_ne_next (hupdate : ∀ s j s', (update s).outcome ≠ .jump j s') (n : Nat) (s s' : σ) :
    (Source.rounds m code f cond body update n s).outcome ≠ .jump .next s' := by
  induction n generalizing s with
  | zero => simp [Source.rounds]
  | succ n ih =>
    simp only [Source.rounds, Source.branchOn, AtomicMachine.branchOn]
    split
    · split
      · next holds _ =>
        cases holds with
        | false => simp
        | true =>
          simp only [↓reduceIte, Run.after_outcome]
          exact Run.andThen_outcome_ne (Run.landing_ne_jump _ _ _)
            fun s => Run.andThen_outcome_ne (hupdate s _ _) ih
      · simp
    · simp

theorem loopRound_exec (n : Nat) (s : σ) :
    (loopRound labels c inner step).exec m n s = m.branchOn id c s fun holds s =>
      if holds then ((inner ++ step).exec m n s).andThen fun s => .ended (.jump labels.again s)
      else .ended (.jump labels.exit s) := by
  simp only [loopRound, Body.exec, Body.exec_append]

section Round

variable (hc : code f (.condition cond) = some c) (hexit : labels.exit ≠ labels.again)
variable (hround : ∀ n s, ((inner ++ step).exec m n s).landing labels.again =
  (((body n s).landing .next).andThen update).lowered closes labels.jump)

include hc hexit hround

/-- Round by round, the loop of the code does what the loop of the source does. It goes out by a
branch where the source's loop just ends. -/
theorem repeating_eq_rounds (n : Nat) (s : σ) :
    Run.repeating labels.again ((loopRound labels c inner step).exec m) n s =
      ((Source.rounds m code f cond body update n s).lowered closes labels.jump).andThen
        fun s => .ended (.jump labels.exit s) := by
  induction n generalizing s with
  | zero => rfl
  | succ n ih =>
    simp only [Run.repeating, loopRound_exec, Source.rounds, Run.branchOn_onJump,
      Source.branchOn_lowered closes labels.jump hc, Body.branchOn_andThen]
    refine congrArg _ (funext fun holds => funext fun s => ?_)
    cases holds with
    | false => simp [Run.onJump, RunOutcome.relabel, hexit]
    | true =>
      simp only [↓reduceIte, Run.andThen_jump_onJump]
      rw [hround, funext ih, ← Run.andThen_assoc, ← Run.lowered_andThen, Run.andThen_assoc]

theorem loopBody_exec (hupdate : ∀ s j s', (update s).outcome ≠ .jump j s')
    (label : Jump → Label) (n : Nat) (s : σ) :
    (loopBody labels c inner step).exec m n s =
      (Source.looping m code f cond body update n s).lowered closes label := by
  have hcaught : ∀ j' s', (Source.rounds m code f cond body update n s).outcome = .jump j' s' →
      j' ≠ .exit → labels.jump j' ≠ labels.jump .exit ∧ label j' = labels.jump j' := by
    intro j' s' ho hj
    cases j' with
    | exit => exact absurd rfl hj
    | next => exact absurd ho (rounds_ne_next hupdate n s s')
  have hloop : (loopBody labels c inner step).exec m n s =
      (Run.repeating labels.again ((loopRound labels c inner step).exec m) n s).landing
        labels.exit := by
    simp only [loopBody, Body.exec, Run.andThen_ended]
  rw [hloop, repeating_eq_rounds hc hexit hround, Source.looping,
    ← Run.lowered_landing closes hcaught]
  exact (Run.andThen_jump_onJump _ _ _).trans (Run.andThen_ended _)

end Round

end Loops

/-! ## Conditionals -/

/-- Is the end of this conditional taken to be out of reach? It is when the conditional is declared
to yield a value. -/
def Lower.closes (arena : Arena) (result : Ty) (id : StmtId) : Bool :=
  arena.returns id && result.lane.valType?.isSome

theorem yields?_isSome (arena : Arena) (f : Frame) (id : StmtId) :
    (yields? arena f id).isSome = closes arena f.result id := by
  unfold yields? closes
  cases arena.returns id <;> rfl

/-- A conditional without an `else` does not count as returning. -/
theorem closes_cond {arena : Arena} {id thenBranch : StmtId} {cond : ExprId} (result : Ty)
    (hs : arena.stmt? id = some (.cond cond thenBranch none)) : closes arena result id = false := by
  rw [closes, Arena.returns, descend_eq]
  simp [Arena.returnsStep, hs]

section Conditionals

variable {σ : Type} (m : AtomicMachine σ) (info : ModuleInfo) (arena : Arena)

/-- Coming out at the end of an arm or of a conditional. -/
def leaving (closed : Bool) (s : σ) : Run Step Label σ :=
  if closed then .ended .trapped else .ended (.normal s)

/-- An arm is closed by an `unreachable`, or because its end is out of reach. -/
theorem closedArm_exec {code : Frame → Leaf → Option Code} {arm : StmtId} {f : Frame} {body : Body}
    {n : Nat} {s : σ} {closes : StmtId → Bool} {label : Jump → Label}
    (hbody : body.exec m n s = (Source.exec m info arena code arm f n s).lowered closes label)
    (closed : Bool) :
    (closedArm arena arm closed body).exec m n s =
      ((Source.exec m info arena code arm f n s).lowered closes label).andThen
        (leaving closed) := by
  cases closed with
  | false => exact hbody.trans (Run.andThen_ended _).symm
  | true =>
    cases harm : arena.neverFallsThrough arm with
    | false =>
      simp only [closedArm, harm, Bool.not_false, Bool.and_self, ↓reduceIte, Body.exec_append,
        hbody]
      rfl
    | true =>
      simp only [closedArm, harm, Bool.not_true, Bool.and_false, Bool.false_eq_true, ↓reduceIte,
        hbody]
      exact (Run.lowered_andThen_trapped closes label
        (Source.exec_ne_normal m info arena code harm f n s)).symm

/-- What is put after a conditional is out of reach, or nothing. -/
theorem leaving_andThen_afterCond (closed tail : Bool) (n : Nat) (s : σ) :
    (leaving closed s).andThen ((afterCond closed tail).exec m n) = leaving closed s := by
  cases closed <;> rfl

end Conditionals

/-! ## Statements -/

/-- The code of a leaf, if it has any. -/
def Lower.leafCode? (info : ModuleInfo) (arena : Arena) (f : Frame) (leaf : Leaf) : Option Code :=
  (leafCode info arena f leaf).toOption

/-- The frame seen from outside all loops. -/
def Frame.outside (f : Frame) : Frame := { f with loops := [] }

theorem Frame.outside_revealAll (f : Frame) (names : List String) :
    (f.revealAll names).outside = f.outside.revealAll names :=
  (f.revealAll_withLoops names []).symm

theorem leafCode?_outside {info : ModuleInfo} {arena : Arena} {f : Frame} {leaf : Leaf}
    {code : Code} (h : leafCode info arena f leaf = .ok code) :
    leafCode? info arena f.outside leaf = some code := by
  rw [leafCode?, Frame.outside, leafCode_withLoops, h]
  rfl

section Statements

variable {σ : Type} {m : AtomicMachine σ} {info : ModuleInfo} {arena : Arena}

@[simp] theorem Source.sequence_singleton (sub : StmtId → Frame → Nat → σ → Run Event Jump σ)
    (id : StmtId) (f : Frame) (n : Nat) (s : σ) :
    Source.sequence info arena sub [id] f n s = sub id f n s :=
  Run.andThen_ended _

/-- The rounds of a `while`: `continue` starts over. -/
theorem whileLoop_round {labels : LabelSupply} {inner : Body} {body : Nat → σ → Run Event Jump σ}
    {closes : StmtId → Bool}
    (hbody : ∀ n s, inner.exec m n s = (body n s).lowered closes labels.whileLoop.1.jump)
    (n : Nat) (s : σ) :
    ((inner ++ .done).exec m n s).landing labels.whileLoop.1.again =
      (((body n s).landing .next).andThen fun s => .ended (.normal s)).lowered closes
        labels.whileLoop.1.jump := by
  rw [Body.exec_append, Run.andThen_ended]
  refine (congrArg (Run.landing · _) ((Run.andThen_ended _).trans (hbody n s))).trans ?_
  refine Run.lowered_landing closes (j := .next) fun j' s' _ hj => ⟨?_, rfl⟩
  cases j' with
  | exit => simp [LoopLabels.jump, LabelSupply.whileLoop]
  | next => exact absurd rfl hj

/-- The rounds of a `for`: `continue` comes to the end of the body, and the update follows. -/
theorem forLoop_round {labels : LabelSupply} {inner step : Body}
    {body : Nat → σ → Run Event Jump σ} {update : σ → Run Event Jump σ} {closes : StmtId → Bool}
    (hbody : ∀ n s, inner.exec m n s = (body n s).lowered closes labels.forLoop.1.jump)
    (hstep : ∀ n s, step.exec m n s = (update s).lowered closes labels.forLoop.1.jump)
    (n : Nat) (s : σ) :
    (((Body.block labels.forLoop.1.next inner .done) ++ step).exec m n s).landing
        labels.forLoop.1.again =
      (((body n s).landing .next).andThen update).lowered closes labels.forLoop.1.jump := by
  have hblock : (Body.block labels.forLoop.1.next inner .done).exec m n s =
      ((body n s).landing .next).lowered closes labels.forLoop.1.jump := by
    simp only [Body.exec, Run.andThen_ended, hbody]
    refine Run.lowered_landing closes (j := .next) fun j' s' _ hj => ⟨?_, rfl⟩
    cases j' with
    | exit => simp [LoopLabels.jump, LabelSupply.forLoop]
    | next => exact absurd rfl hj
  rw [Body.exec_append, hblock, funext (hstep n), ← Run.lowered_andThen]
  refine Run.lowered_landing_of_ne closes _ (fun j => ?_) _
  cases j <;> simp [LoopLabels.jump, LabelSupply.forLoop]

theorem updateBody_exec {f : Frame} {update : Option ExprId} {step : Body}
    (h : updateBody info arena f update = .ok step) (closes : StmtId → Bool)
    (label : Jump → Label) (n : Nat) (s : σ) :
    step.exec m n s =
      (Source.updating m (leafCode? info arena) f.outside update s).lowered closes label := by
  cases update with
  | none => cases h; rfl
  | some e =>
    obtain ⟨code, hcode, rfl⟩ := Compiled.map_ok.mp h
    simp only [Body.exec, Run.andThen_ended, Source.updating]
    exact (Source.perform_lowered _ _ (leafCode?_outside hcode) (leafCode_ne_nil hcode) s).symm

section After

variable {ids : List StmtId} {tail : Bool} {s s' : LowerState} {body : Body}
variable (h : Lowers info arena ids tail s body s')

include h

theorem Lowers.innermostLoop?_eq : s'.frame.innermostLoop? = s.frame.innermostLoop? := by
  rw [h.frame_eq, Frame.innermostLoop?, Frame.revealAll_loops]
  rfl

theorem Lowers.result_eq : s'.frame.result = s.frame.result := by
  rw [h.frame_eq, Frame.revealAll_result]

theorem Lowers.outside_eq :
    s'.frame.outside = s.frame.outside.revealAll (ids.flatMap (Source.boundNames info arena)) := by
  rw [h.frame_eq, Frame.outside_revealAll]

end After

/-- Lowered statements do what their source does, under every bound on the rounds of loops. -/
theorem Lowers.exec_eq {ids : List StmtId} {tail : Bool} {s s' : LowerState} {body : Body}
    (h : Lowers info arena ids tail s body s') (label : Jump → Label)
    (hlabel : ∀ l, s.frame.innermostLoop? = some l → label = l.jump) (n : Nat) (st : σ) :
    body.exec m n st =
      (Source.sequence info arena (Source.exec m info arena (leafCode? info arena)) ids
        s.frame.outside n st).lowered (closes arena s.frame.result) label := by
  induction h generalizing label n st with
  | nil => rfl
  | cons hfirst hrest ihFirst ihRest =>
    rw [Body.exec_append, ihFirst label hlabel,
      funext (ihRest label (by rwa [hfirst.innermostLoop?_eq]) n), Source.sequence_singleton,
      hfirst.outside_eq, hfirst.result_eq, List.flatMap_singleton, ← Run.lowered_andThen]
    rfl
  | block hs hlt _ ih =>
    rw [ih label hlabel, Source.sequence_singleton, Source.exec_block m info arena _ hs hlt]
  | letting hs hcode | expr hs hcode =>
    rw [Source.sequence_singleton, Source.exec_eq]
    simp only [Source.execStep, hs, Body.exec, Run.andThen_ended]
    exact (Source.perform_lowered _ _ (leafCode?_outside hcode) (leafCode_ne_nil hcode) st).symm
  -- Both sides branch on the same test, so they are compared arm by arm.
  | @cond id thenBranch cond tail s s' code arm hs hlt hcode harm ih =>
    rw [Source.sequence_singleton, Source.exec_cond m info arena _ hs hlt (by simp),
      Source.conditional, Run.lowered_andThen,
      Source.branchOn_lowered _ _ (leafCode?_outside hcode), yields?_isSome, closes_cond _ hs]
    simp only [Body.exec, Body.branchOn_andThen]
    refine congrArg _ (funext fun holds => funext fun st => ?_)
    simp only [Run.lowered_left, closes_cond _ hs]
    cases holds with
    | true => exact congrArg (Run.andThen · _) (by simpa [closedArm] using ih label hlabel n st)
    | false => rfl
  | @condElse id thenBranch elseBranch cond tail s s₁ s₂ code thenArm elseArm hs hthenLt helseLt
      hcode hthen helse ihThen ihElse =>
    rw [Source.sequence_singleton,
      Source.exec_cond m info arena _ hs hthenLt (by simpa using helseLt), Source.conditional,
      Run.lowered_andThen, Source.branchOn_lowered _ _ (leafCode?_outside hcode), yields?_isSome]
    simp only [Body.exec, Body.branchOn_andThen]
    refine congrArg _ (funext fun holds => funext fun st => ?_)
    cases holds with
    | true =>
      have harm := ihThen label hlabel n st
      rw [Source.sequence_singleton] at harm
      simp only [↓reduceIte, closedArm_exec m info arena harm, Run.andThen_assoc,
        leaving_andThen_afterCond]
      rfl
    | false =>
      have harm := ihElse label (by rwa [hthen.innermostLoop?_eq]) n st
      rw [Source.sequence_singleton, hthen.outside_eq, hthen.result_eq,
        List.flatMap_singleton] at harm
      simp only [Bool.false_eq_true, ↓reduceIte, closedArm_exec m info arena harm,
        Run.andThen_assoc, leaving_andThen_afterCond]
      rfl
  -- Inside, jumps go to the labels of this loop, whatever they went to outside.
  | @whileLoop id body cond tail s s' code inner hs hlt hcode hbody ih =>
    rw [Source.sequence_singleton, Source.exec_whileLoop m info arena _ hs hlt]
    refine loopBody_exec (leafCode?_outside hcode) (by simp [LabelSupply.whileLoop])
      (whileLoop_round fun n st => ?_) (by simp) label n st
    rw [ih _ (fun l hl => by cases hl; rfl), Source.sequence_singleton]
    rfl
  | @forLoop id body init cond update tail s s₁ s₂ code start inner step hs hinitLt hlt hinit hcode
      hbody hstep ihInit ih =>
    rw [Source.sequence_singleton, Source.exec_forLoop m info arena _ hs hinitLt hlt,
      Source.counting, Body.exec_append, ihInit label hlabel, Run.lowered_andThen,
      ← hinit.outside_eq]
    refine congrArg _ (funext fun st => ?_)
    refine loopBody_exec (leafCode?_outside hcode) (by simp [LabelSupply.forLoop])
      (forLoop_round (fun n st => ?_) fun n st => ?_) Source.updating_ne_jump label n st
    · rw [ih _ (fun l hl => by cases hl; rfl), Source.sequence_singleton, ← hinit.result_eq]
      rfl
    -- The update sees what the body has uncovered, in the source as in the code.
    · rw [updateBody_exec hstep, show s₂.exit.frame.outside = s₂.frame.outside from rfl,
        hbody.outside_eq, List.flatMap_singleton]
      rfl
  | retNothing hs =>
    rw [Source.sequence_singleton, Source.exec_eq]
    simp only [Source.execStep, hs]
    rfl
  | ret hs hcode =>
    rw [Source.sequence_singleton, Source.exec_eq]
    simp only [Source.execStep, hs, Body.exec, Run.lowered_andThen]
    rw [Source.perform_lowered _ _ (leafCode?_outside hcode) (leafCode_ne_nil hcode)]
    rfl
  | breakLoop hs hl | continueLoop hs hl =>
    rw [Source.sequence_singleton, Source.exec_eq, hlabel _ hl]
    simp only [Source.execStep, hs]
    rfl

end Statements

end WasmBackend
