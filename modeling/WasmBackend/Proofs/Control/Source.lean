import WasmBackend.Lower.Stmt
import WasmBackend.Proofs.Control.Run

/-!
# Running statements

`Source.exec` runs a statement of the language as the language means it: blocks in order,
conditionals by their condition, `while` and `for` round by round, `break` and `continue` on the
innermost loop, `return` out of the function. After `continue` a `for` runs its update before the
condition is tested again.

Statements meet expressions at their leaves (`Leaf`). Which code a leaf stands for depends on the
locals visible there, so a run carries the frame along: a `let` makes its names visible to
everything written after it, in the order of the text and not of the run. The code itself is a
parameter; `Lower.leafCode` is the one that lowering uses.

A run also notes each conditional that is left at its end (`Event.left`). The notes change nothing,
but they say where a run came out of a statement that was taken not to come out. Values are left
out: they travel inside the code of leaves.
-/

namespace WasmBackend

/-- A place where a statement uses an expression. -/
inductive Leaf where
  | effect (e : ExprId)
  | condition (e : ExprId)
  /-- What `return` hands back. -/
  | result (e : ExprId)
  | binding (decl : LetDecl)
  deriving DecidableEq

/-- `break` goes to the exit of the innermost loop, `continue` to its next round. -/
inductive Jump where
  | exit
  | next
  deriving DecidableEq

/-- What a run leaves a trace of: steps, and notes about conditionals. -/
inductive Event where
  | step (s : Step)
  /-- Control came out at the end of this conditional. -/
  | left (id : StmtId)
  deriving DecidableEq

def Event.step? : Event → Option Step
  | .step s => some s
  | .left _ => none

/-- The steps of a run, without the notes. -/
def Run.steps {ι σ : Type} (r : Run Event ι σ) : List Step := r.events.filterMap Event.step?

/-! ## Scope -/

def Frame.revealAll (f : Frame) (names : List String) : Frame := names.foldl Frame.reveal f

theorem Frame.revealAll_eq (f : Frame) (names : List String) :
    f.revealAll names = { f with pending := (f.revealAll names).pending } := by
  induction names generalizing f with
  | nil => rfl
  | cons name rest ih => exact ih (f.reveal name)

theorem Frame.revealAll_append (f : Frame) (a b : List String) :
    f.revealAll (a ++ b) = (f.revealAll a).revealAll b := List.foldl_append

@[simp] theorem Frame.revealAll_loops (f : Frame) (names : List String) :
    (f.revealAll names).loops = f.loops := by rw [f.revealAll_eq]

@[simp] theorem Frame.revealAll_result (f : Frame) (names : List String) :
    (f.revealAll names).result = f.result := by rw [f.revealAll_eq]

/-- Which locals are visible has nothing to do with the loops around a statement. -/
theorem Frame.revealAll_withLoops (f : Frame) (names : List String) (loops : List LoopLabels) :
    { f with loops := loops }.revealAll names = { f.revealAll names with loops := loops } := by
  induction names generalizing f with
  | nil => rfl
  | cons name rest ih => exact ih (f.reveal name)

namespace Source

/-- The names that a `let` makes visible: its own, and those of its members. -/
def letNames (info : ModuleInfo) (arena : Arena) (decl : LetDecl) : List String :=
  match arena.expr? decl.init with
  | some (.struct structName _) =>
    match info.structLayout structName with
    | .ok layout => decl.name :: layout.members.keys.map (Scope.flattenedName decl.name)
    | .error _ => [decl.name]
  | _ => [decl.name]

/-- The leaves of one statement, given those of the statements in it. -/
def leavesStep (arena : Arena) (id : StmtId) (sub : StmtId → List Leaf) : List Leaf :=
  match arena.stmt? id with
  | some (.block stmts) => stmts.flatMap sub
  | some (.letting decl) => [.binding decl]
  | some (.cond cond thenBranch elseBranch) =>
    .condition cond :: (sub thenBranch ++ elseBranch.elim [] sub)
  | some (.whileLoop cond body) => .condition cond :: sub body
  | some (.forLoop init cond update body) =>
    init.elim [] sub ++ .condition cond :: (sub body ++ update.toList.map .effect)
  | some (.ret (some e)) => [.result e]
  | some (.expr e) => [.effect e]
  | _ => []

/-- The leaves of a statement, in the order of the text, where the update of a loop comes after its
body. A statement that is shared counts wherever it stands. References that do not go down are not
followed; in statements that can be lowered there are none. -/
def leaves (arena : Arena) : StmtId → List Leaf := descend (fun _ _ => []) (leavesStep arena)

/-- The names that a leaf makes visible. -/
def leafNames (info : ModuleInfo) (arena : Arena) : Leaf → List String
  | .binding decl => letNames info arena decl
  | _ => []

/-- The names that a statement makes visible to what follows it, in the order of the text. -/
def boundNames (info : ModuleInfo) (arena : Arena) (id : StmtId) : List String :=
  (leaves arena id).flatMap (leafNames info arena)

section Leaves

variable {arena : Arena} {id : StmtId}

theorem leaves_eq (arena : Arena) (id : StmtId) :
    leaves arena id = leavesStep arena id fun c => if c < id then leaves arena c else [] := by
  rw [leaves, descend_eq]

theorem leaves_block {stmts : List StmtId} (hs : arena.stmt? id = some (.block stmts))
    (hlt : ∀ c ∈ stmts, c < id) : leaves arena id = stmts.flatMap (leaves arena) := by
  rw [leaves_eq]
  simp only [leavesStep, hs, List.flatMap_def]
  exact congrArg List.flatten (List.map_congr_left fun c hc => if_pos (hlt c hc))

theorem leaves_cond {cond : ExprId} {thenBranch : StmtId} {elseBranch : Option StmtId}
    (hs : arena.stmt? id = some (.cond cond thenBranch elseBranch)) (hlt : thenBranch < id)
    (helse : ∀ c ∈ elseBranch, c < id) :
    leaves arena id =
      .condition cond :: (leaves arena thenBranch ++ elseBranch.toList.flatMap (leaves arena)) := by
  rw [leaves_eq]
  cases elseBranch with
  | none => simp [leavesStep, hs, hlt]
  | some elseBranch => simp [leavesStep, hs, hlt, helse elseBranch rfl]

theorem leaves_whileLoop {cond : ExprId} {body : StmtId}
    (hs : arena.stmt? id = some (.whileLoop cond body)) (hlt : body < id) :
    leaves arena id = .condition cond :: leaves arena body := by
  rw [leaves_eq]
  simp [leavesStep, hs, hlt]

theorem leaves_forLoop {init : Option StmtId} {cond : ExprId} {update : Option ExprId}
    {body : StmtId} (hs : arena.stmt? id = some (.forLoop init cond update body))
    (hinit : ∀ c ∈ init, c < id) (hlt : body < id) :
    leaves arena id = init.toList.flatMap (leaves arena) ++
      .condition cond :: (leaves arena body ++ update.toList.map .effect) := by
  rw [leaves_eq]
  cases init with
  | none => simp [leavesStep, hs, hlt]
  | some init => simp [leavesStep, hs, hlt, hinit init rfl]

end Leaves

/-! ## Execution -/

section

variable {σ : Type} (m : AtomicMachine σ) (info : ModuleInfo) (arena : Arena)
variable (code : Frame → Leaf → Option Code)

/-- Runs a leaf. One that stands for no code stops the run. -/
def perform (f : Frame) (leaf : Leaf) (s : σ) : Run Event Jump σ :=
  match code f leaf with
  | some c => m.perform .step c s
  | none => .ended .aborted

/-- Tests a condition and goes on with the answer. -/
def branchOn (f : Frame) (e : ExprId) (s : σ) (next : Bool → σ → Run Event Jump σ) :
    Run Event Jump σ :=
  match code f (.condition e) with
  | some c => m.branchOn .step c s next
  | none => .ended .aborted

/-- The rounds of a loop: condition, body, update. A round that is cut short by `continue` goes on
with the update. -/
def rounds (f : Frame) (cond : ExprId) (body : Nat → σ → Run Event Jump σ)
    (update : σ → Run Event Jump σ) : Nat → σ → Run Event Jump σ
  | 0, _ => .ended .unfinished
  | n + 1, s =>
    branchOn m code f cond s fun holds s =>
      if holds then
        ((body (n + 1) s).landing .next).andThen fun s =>
          (update s).andThen (rounds f cond body update n)
      else .ended (.normal s)

/-- A loop is left by its condition or by `break`. -/
def looping (f : Frame) (cond : ExprId) (body : Nat → σ → Run Event Jump σ)
    (update : σ → Run Event Jump σ) (n : Nat) (s : σ) : Run Event Jump σ :=
  (rounds m code f cond body update n s).landing .exit

variable (sub : StmtId → Frame → Nat → σ → Run Event Jump σ)

/-- Statements in order, each in the scope that the ones before it leave. -/
def sequence : List StmtId → Frame → Nat → σ → Run Event Jump σ
  | [], _, _, s => .ended (.normal s)
  | id :: rest, f, n, s =>
    (sub id f n s).andThen (sequence rest (f.revealAll (boundNames info arena id)) n)

/-- A conditional. Coming out at its end is noted. -/
def conditional (id : StmtId) (cond : ExprId) (thenBranch : StmtId) (elseBranch : Option StmtId)
    (f : Frame) (n : Nat) (s : σ) : Run Event Jump σ :=
  (branchOn m code f cond s fun holds s =>
    if holds then sub thenBranch f n s
    else
      match elseBranch with
      | some elseBranch => sub elseBranch (f.revealAll (boundNames info arena thenBranch)) n s
      | none => .ended (.normal s)).andThen fun s => ⟨[.left id], .normal s⟩

/-- The update of a `for`. -/
def updating (f : Frame) (update : Option ExprId) (s : σ) : Run Event Jump σ :=
  match update with
  | some e => perform m code f (.effect e) s
  | none => .ended (.normal s)

/-- A `for`. Its first part runs before the loop, and its update sees the names of the body. -/
def counting (init : Option StmtId) (cond : ExprId) (update : Option ExprId) (body : StmtId)
    (f : Frame) (n : Nat) (s : σ) : Run Event Jump σ :=
  (sequence info arena sub init.toList f n s).andThen
    (looping m code (f.revealAll (init.toList.flatMap (boundNames info arena))) cond
      (sub body (f.revealAll (init.toList.flatMap (boundNames info arena))))
      (updating m code
        ((f.revealAll (init.toList.flatMap (boundNames info arena))).revealAll
          (boundNames info arena body)) update) n)

/-- One statement, given how those in it are run. What is visible to a part is known beforehand, so
no frame is handed on from one part to the next. -/
def execStep (id : StmtId) (sub : StmtId → Frame → Nat → σ → Run Event Jump σ) (f : Frame)
    (n : Nat) (s : σ) : Run Event Jump σ :=
  match arena.stmt? id with
  | some (.block stmts) => sequence info arena sub stmts f n s
  | some (.letting decl) => perform m code f (.binding decl) s
  | some (.cond cond thenBranch elseBranch) =>
    conditional m info arena code sub id cond thenBranch elseBranch f n s
  | some (.whileLoop cond body) =>
    looping m code f cond (sub body f) (fun s => .ended (.normal s)) n s
  | some (.forLoop init cond update body) =>
    counting m info arena code sub init cond update body f n s
  | some (.ret none) => .ended (.returned s)
  | some (.ret (some e)) => (perform m code f (.result e) s).andThen fun s => .ended (.returned s)
  | some .breakLoop => .ended (.jump .exit s)
  | some .continueLoop => .ended (.jump .next s)
  | some (.expr e) => perform m code f (.effect e) s
  -- Declarations have no place inside a function.
  | _ => .ended .aborted

/-- Runs a statement in a frame, with at most so many rounds in a row of each of its loops. -/
def exec : StmtId → Frame → Nat → σ → Run Event Jump σ :=
  descend (fun _ _ _ _ _ => .ended .aborted) (execStep m info arena code)

theorem exec_eq (id : StmtId) :
    exec m info arena code id = execStep m info arena code id fun child =>
      if child < id then exec m info arena code child else fun _ _ _ => .ended .aborted := by
  rw [exec, descend_eq]

/-- The children that lowering accepts are earlier nodes, and on those the guard is idle. -/
theorem sequence_congr {sub sub' : StmtId → Frame → Nat → σ → Run Event Jump σ}
    {stmts : List StmtId} (h : ∀ id ∈ stmts, sub id = sub' id) (f : Frame) (n : Nat) (s : σ) :
    sequence info arena sub stmts f n s = sequence info arena sub' stmts f n s := by
  induction stmts generalizing f s with
  | nil => rfl
  | cons id rest ih =>
    simp only [sequence, h id List.mem_cons_self]
    exact congrArg _ (funext fun s => ih (fun c hc => h c (List.mem_cons_of_mem _ hc)) _ s)

theorem exec_block {id : StmtId} {stmts : List StmtId} (hs : arena.stmt? id = some (.block stmts))
    (hlt : ∀ c ∈ stmts, c < id) (f : Frame) (n : Nat) (s : σ) :
    exec m info arena code id f n s =
      sequence info arena (exec m info arena code) stmts f n s := by
  rw [exec_eq]
  simp only [execStep, hs]
  exact sequence_congr info arena (fun c hc => if_pos (hlt c hc)) f n s

theorem exec_cond {id thenBranch : StmtId} {cond : ExprId} {elseBranch : Option StmtId}
    (hs : arena.stmt? id = some (.cond cond thenBranch elseBranch)) (hlt : thenBranch < id)
    (helse : ∀ c ∈ elseBranch, c < id) (f : Frame) (n : Nat) (s : σ) :
    exec m info arena code id f n s =
      conditional m info arena code (exec m info arena code) id cond thenBranch elseBranch f n
        s := by
  rw [exec_eq]
  cases elseBranch with
  | none => simp only [execStep, hs, conditional, if_pos hlt]
  | some elseBranch =>
    simp only [execStep, hs, conditional, if_pos hlt, if_pos (helse elseBranch rfl)]

theorem exec_whileLoop {id body : StmtId} {cond : ExprId}
    (hs : arena.stmt? id = some (.whileLoop cond body)) (hlt : body < id) (f : Frame) (n : Nat)
    (s : σ) :
    exec m info arena code id f n s =
      looping m code f cond (exec m info arena code body f) (fun s => .ended (.normal s)) n s := by
  rw [exec_eq]
  simp only [execStep, hs, if_pos hlt]

theorem exec_forLoop {id body : StmtId} {init : Option StmtId} {cond : ExprId}
    {update : Option ExprId} (hs : arena.stmt? id = some (.forLoop init cond update body))
    (hinit : ∀ c ∈ init, c < id) (hlt : body < id) (f : Frame) (n : Nat) (s : σ) :
    exec m info arena code id f n s =
      counting m info arena code (exec m info arena code) init cond update body f n s := by
  rw [exec_eq]
  simp only [execStep, hs, counting, if_pos hlt]
  rw [sequence_congr info arena (fun c hc => if_pos (hinit c (Option.mem_toList.mp hc)))]

/-! ## Larger bounds -/

/-- The second run is the first with a larger bound, and the first did not trap: an `unreachable` is
no part of the language. -/
def Continues (r r' : Run Event Jump σ) : Prop := r.Extends r' ∧ r.outcome ≠ .trapped

theorem Continues.refl {r : Run Event Jump σ} (h : r.outcome ≠ .trapped) : Continues r r :=
  ⟨.refl r, h⟩

theorem Continues.andThen {r r' : Run Event Jump σ} {k k' : σ → Run Event Jump σ}
    (h : Continues r r') (hk : ∀ s, Continues (k s) (k' s)) :
    Continues (r.andThen k) (r'.andThen k') :=
  ⟨h.1.andThen fun s => (hk s).1, Run.andThen_outcome_ne h.2 fun s => (hk s).2⟩

theorem Continues.landing {r r' : Run Event Jump σ} (h : Continues r r') (j : Jump) :
    Continues (r.landing j) (r'.landing j) :=
  ⟨h.1.landing j, Run.landing_outcome_ne h.2 (by simp) j⟩

theorem perform_continues (f : Frame) (leaf : Leaf) (s : σ) :
    Continues (perform m code f leaf s) (perform m code f leaf s) := by
  refine .refl ?_
  unfold perform AtomicMachine.perform
  split
  · split <;> simp
  · simp

theorem branchOn_continues (f : Frame) (e : ExprId) (s : σ) {k k' : Bool → σ → Run Event Jump σ}
    (hk : ∀ b s, Continues (k b s) (k' b s)) :
    Continues (branchOn m code f e s k) (branchOn m code f e s k') := by
  unfold branchOn
  split
  · refine ⟨Run.extends_branchOn m _ _ s fun b s => (hk b s).1, ?_⟩
    unfold AtomicMachine.branchOn
    split
    · exact (hk _ _).2
    · simp
  · exact .refl (by simp)

theorem updating_continues (f : Frame) (update : Option ExprId) (s : σ) :
    Continues (updating m code f update s) (updating m code f update s) := by
  cases update with
  | some e => exact perform_continues m code f (.effect e) s
  | none => exact .refl (by simp [updating])

theorem looping_continues (f : Frame) (cond : ExprId) {body : Nat → σ → Run Event Jump σ}
    {update : σ → Run Event Jump σ} (hbody : ∀ n s, Continues (body n s) (body (n + 1) s))
    (hupdate : ∀ s, Continues (update s) (update s)) (n : Nat) (s : σ) :
    Continues (looping m code f cond body update n s)
      (looping m code f cond body update (n + 1) s) := by
  refine Continues.landing ?_ Jump.exit
  induction n generalizing s with
  | zero => exact ⟨Run.extends_of_unfinished _, by simp [rounds]⟩
  | succ n ih =>
    refine branchOn_continues m code f cond s fun holds s => ?_
    cases holds with
    | true => exact ((hbody (n + 1) s).landing .next).andThen fun s => (hupdate s).andThen ih
    | false => exact .refl (by simp)

section Step

variable {sub : StmtId → Frame → Nat → σ → Run Event Jump σ}
variable (hsub : ∀ c f n s, Continues (sub c f n s) (sub c f (n + 1) s))

include hsub

theorem sequence_continues (stmts : List StmtId) (f : Frame) (n : Nat) (s : σ) :
    Continues (sequence info arena sub stmts f n s)
      (sequence info arena sub stmts f (n + 1) s) := by
  induction stmts generalizing f s with
  | nil => exact .refl (by simp [sequence])
  | cons id rest ih => exact (hsub id f n s).andThen fun s => ih _ s

theorem execStep_continues (id : StmtId) (f : Frame) (n : Nat) (s : σ) :
    Continues (execStep m info arena code id sub f n s)
      (execStep m info arena code id sub f (n + 1) s) := by
  unfold execStep
  split
  · exact sequence_continues info arena hsub _ f n s
  · exact perform_continues m code f _ s
  · next cond thenBranch elseBranch _ =>
    refine (branchOn_continues m code f cond s fun holds s => ?_).andThen
      fun s => .refl (by simp)
    cases holds with
    | true => exact hsub thenBranch f n s
    | false =>
      cases elseBranch with
      | some elseBranch => exact hsub elseBranch _ n s
      | none => exact .refl (by simp)
  · next cond body _ =>
    exact looping_continues m code f cond (hsub body f) (fun s => .refl (by simp)) n s
  · next init cond update body _ =>
    exact (sequence_continues info arena hsub _ f n s).andThen fun s =>
      looping_continues m code _ cond (hsub body _) (updating_continues m code _ update) n s
  · exact .refl (by simp)
  · exact (perform_continues m code f _ s).andThen fun s => .refl (by simp)
  · exact .refl (by simp)
  · exact .refl (by simp)
  · exact perform_continues m code f _ s
  · exact .refl (by simp)

end Step

theorem exec_continues (id : StmtId) (f : Frame) (n : Nat) (s : σ) :
    Continues (exec m info arena code id f n s) (exec m info arena code id f (n + 1) s) := by
  induction id using Nat.strongRecOn generalizing f n s with
  | ind id ih =>
    rw [exec_eq]
    refine execStep_continues m info arena code (fun c f n s => ?_) id f n s
    by_cases hc : c < id
    · simpa [hc] using ih c hc f n s
    · simpa [hc] using Continues.refl (by simp)

/-- A larger bound only continues runs that were broken off. -/
theorem exec_extends (id : StmtId) (f : Frame) (n : Nat) (s : σ) :
    (exec m info arena code id f n s).Extends (exec m info arena code id f (n + 1) s) :=
  (exec_continues m info arena code id f n s).1

theorem exec_ne_trapped (id : StmtId) (f : Frame) (n : Nat) (s : σ) :
    (exec m info arena code id f n s).outcome ≠ .trapped :=
  (exec_continues m info arena code id f n s).2

end

end Source

end WasmBackend
