import WasmBackend.Proofs.Control.Source
import WasmBackend.Proofs.Traversal.References

/-!
# How statements complete

`Arena.Completes` says how a statement can complete, by rules and without a machine: a condition may
come out either way each time that it is tested, so a loop may go round any number of times. A
declaration completes normally. Every run of `Source.exec` that comes to an end completes in one of
these ways (`Source.exec_completes`).

`neverFallsThrough` looks at the text of a statement only, and for it any statement of a block will
do, even one behind a `break`. That is still right about normal completion: a block completes
normally only if all its statements do (`Arena.Completes.mayFallThrough`). It is also as precise as
it can be without telling jumps from normal completion: where it does not hold, some completion is
not a `return`, unless a `for` cannot get past its first part (`Arena.exists_completes`). Steps and
states are left out; only the way of ending is kept.
-/

namespace WasmBackend

/-- How a statement completes. -/
inductive Completion where
  | normal
  | jump (target : Jump)
  | returned
  deriving DecidableEq

/-- What can be executed: a statement, statements in order, and the rounds of a loop. -/
inductive Fragment where
  | stmt (id : StmtId)
  | seq (ids : List StmtId)
  | rounds (body : StmtId)

namespace Stmt

/-- Statements without others in them that are executed with them, and without a jump. -/
def isSimple : Stmt → Bool
  | letting _ => true
  | expr _ => true
  | function _ => true
  | struct _ => true
  | importing _ => true
  | _ => false

def isLoop : Stmt → Bool
  | whileLoop _ _ => true
  | forLoop _ _ _ _ => true
  | _ => false

def isFunction : Stmt → Bool
  | function _ => true
  | _ => false

end Stmt

namespace Arena

/-- Some execution of the fragment completes like this. -/
inductive Completes (arena : Arena) : Fragment → Completion → Prop
  | simple {id : StmtId} {s : Stmt} (hs : arena.stmt? id = some s) (hsimple : s.isSimple = true) :
      Completes arena (.stmt id) .normal
  | ret {id : StmtId} {value : Option ExprId} (hs : arena.stmt? id = some (.ret value)) :
      Completes arena (.stmt id) .returned
  | breakLoop {id : StmtId} (hs : arena.stmt? id = some .breakLoop) :
      Completes arena (.stmt id) (.jump .exit)
  | continueLoop {id : StmtId} (hs : arena.stmt? id = some .continueLoop) :
      Completes arena (.stmt id) (.jump .next)
  | block {id : StmtId} {stmts : List StmtId} {c : Completion}
      (hs : arena.stmt? id = some (.block stmts)) (h : Completes arena (.seq stmts) c) :
      Completes arena (.stmt id) c
  | thenBranch {id thenBranch : StmtId} {cond : ExprId} {elseBranch : Option StmtId}
      {c : Completion} (hs : arena.stmt? id = some (.cond cond thenBranch elseBranch))
      (h : Completes arena (.stmt thenBranch) c) : Completes arena (.stmt id) c
  | elseBranch {id thenBranch elseBranch : StmtId} {cond : ExprId} {c : Completion}
      (hs : arena.stmt? id = some (.cond cond thenBranch (some elseBranch)))
      (h : Completes arena (.stmt elseBranch) c) : Completes arena (.stmt id) c
  | noElse {id thenBranch : StmtId} {cond : ExprId}
      (hs : arena.stmt? id = some (.cond cond thenBranch none)) : Completes arena (.stmt id) .normal
  | whileLoop {id body : StmtId} {cond : ExprId} {c : Completion}
      (hs : arena.stmt? id = some (.whileLoop cond body)) (h : Completes arena (.rounds body) c) :
      Completes arena (.stmt id) c
  | forLoop {id body : StmtId} {init : Option StmtId} {cond : ExprId} {update : Option ExprId}
      {c : Completion} (hs : arena.stmt? id = some (.forLoop init cond update body))
      (hinit : Completes arena (.seq init.toList) .normal) (h : Completes arena (.rounds body) c) :
      Completes arena (.stmt id) c
  /-- The first part is left before the loop begins. -/
  | forInit {id body : StmtId} {init : Option StmtId} {cond : ExprId} {update : Option ExprId}
      {c : Completion} (hs : arena.stmt? id = some (.forLoop init cond update body))
      (hinit : Completes arena (.seq init.toList) c) (hc : c ≠ .normal) :
      Completes arena (.stmt id) c
  | nil : Completes arena (.seq []) .normal
  | cons {id : StmtId} {rest : List StmtId} {c : Completion}
      (h : Completes arena (.stmt id) .normal) (hrest : Completes arena (.seq rest) c) :
      Completes arena (.seq (id :: rest)) c
  | leave {id : StmtId} {rest : List StmtId} {c : Completion} (h : Completes arena (.stmt id) c)
      (hc : c ≠ .normal) : Completes arena (.seq (id :: rest)) c
  /-- The condition does not hold. -/
  | finished {body : StmtId} : Completes arena (.rounds body) .normal
  | broken {body : StmtId} (h : Completes arena (.stmt body) (.jump .exit)) :
      Completes arena (.rounds body) .normal
  | returned {body : StmtId} (h : Completes arena (.stmt body) .returned) :
      Completes arena (.rounds body) .returned
  | again {body : StmtId} {c c' : Completion} (h : Completes arena (.stmt body) c)
      (hc : c = .normal ∨ c = .jump .next) (hrest : Completes arena (.rounds body) c') :
      Completes arena (.rounds body) c'

/-! ## The two analyses -/

variable {arena : Arena} {id : StmtId}

theorem neverFallsThrough_eq (arena : Arena) (id : StmtId) :
    arena.neverFallsThrough id = arena.neverFallsThroughStep id fun c =>
      if c < id then arena.neverFallsThrough c else false := by
  rw [neverFallsThrough, descend_eq]

theorem returns_eq (arena : Arena) (id : StmtId) :
    arena.returns id = arena.returnsStep id fun c =>
      if c < id then arena.returns c else false := by
  rw [returns, descend_eq]

theorem neverFallsThrough_block {stmts : List StmtId} (hs : arena.stmt? id = some (.block stmts))
    (hlt : ∀ c ∈ stmts, c < id) :
    arena.neverFallsThrough id = stmts.any arena.neverFallsThrough := by
  rw [neverFallsThrough_eq, neverFallsThroughStep, hs, Bool.eq_iff_iff]
  simp only [List.any_eq_true]
  refine exists_congr fun c => and_congr_right fun hc => ?_
  rw [if_pos (hlt c hc)]

/-- A statement whose end is out of reach returns. -/
theorem returns_of_neverFallsThrough (h : arena.neverFallsThrough id = true) :
    arena.returns id = true := by
  induction id using Nat.strongRecOn with
  | ind id ih =>
    -- Both analyses answer `false` about a reference that does not go down.
    have hchild : ∀ c, (if c < id then arena.neverFallsThrough c else false) = true →
        (if c < id then arena.returns c else false) = true := by
      intro c hc
      by_cases hlt : c < id
      · simp only [hlt, ↓reduceIte] at hc ⊢
        exact ih c hlt hc
      · simp [hlt] at hc
    rw [neverFallsThrough_eq, neverFallsThroughStep] at h
    rw [returns_eq, returnsStep]
    split at h
    · next hs => simp only [hs]
    · next stmts hs =>
      simp only [hs]
      obtain ⟨c, hc, hnft⟩ := List.any_eq_true.mp h
      exact List.any_eq_true.mpr ⟨c, hc, hchild c hnft⟩
    · next thenBranch elseBranch hs =>
      simp only [hs]
      obtain ⟨hthen, helse⟩ := Bool.and_eq_true .. |>.mp h
      rw [hchild _ hthen, hchild _ helse]
      rfl
    · cases h

/-- Without loops and functions there is nothing for the two analyses to differ about. -/
theorem neverFallsThrough_eq_returns (h : ∀ inner s, arena.Inside inner id →
      arena.stmt? inner = some s → s.isLoop = false ∧ s.isFunction = false) :
    arena.neverFallsThrough id = arena.returns id := by
  induction id using Nat.strongRecOn with
  | ind id ih =>
    rw [neverFallsThrough_eq, returns_eq, neverFallsThroughStep, returnsStep]
    cases hs : arena.stmt? id with
    | none => rfl
    | some s =>
      have hchild : ∀ c ∈ s.stmtChildren, (if c < id then arena.neverFallsThrough c else false) =
          if c < id then arena.returns c else false := by
        intro c hc
        split
        · next hlt =>
          exact ih c hlt fun inner s' hinner => h inner s' (.child hs hc hinner)
        · rfl
      -- Into loops and functions only `returns` looks.
      obtain ⟨hloop, hfunction⟩ := h id s .self hs
      cases s with
      | block stmts =>
        rw [Bool.eq_iff_iff]
        simp only [List.any_eq_true]
        exact exists_congr fun c => and_congr_right fun hc => by rw [hchild c hc]
      | cond cond thenBranch elseBranch =>
        cases elseBranch with
        | none => rfl
        | some elseBranch =>
          simp only [hchild thenBranch (by simp),
            hchild elseBranch (by simp)]
      | whileLoop cond body => cases hloop
      | forLoop init cond update body => cases hloop
      | function decl => cases hfunction
      | _ => rfl

/-! ## Soundness -/

/-- As far as `neverFallsThrough` can tell, control may come out at the end of the fragment. -/
def MayFallThrough (arena : Arena) : Fragment → Prop
  | .stmt id => arena.neverFallsThrough id = false
  | .seq ids => ∀ id ∈ ids, arena.neverFallsThrough id = false
  | .rounds _ => True

/-- What completes normally was not taken to have its end out of reach. -/
theorem Completes.mayFallThrough {p : Fragment} {c : Completion} (h : arena.Completes p c)
    (hc : c = .normal) : arena.MayFallThrough p := by
  -- A guarded answer is no more than the answer itself.
  have hguard {id c : StmtId} (hfalse : arena.neverFallsThrough c = false) :
      (if c < id then arena.neverFallsThrough c else false) = false := by
    split
    · exact hfalse
    · rfl
  induction h with
  | @simple id s hs hsimple =>
    rw [MayFallThrough, neverFallsThrough_eq, neverFallsThroughStep, hs]
    cases s with
    | ret _ | block _ | cond _ _ _ => cases hsimple
    | _ => rfl
  | ret => cases hc
  | breakLoop => cases hc
  | continueLoop => cases hc
  | block hs _ ih =>
    rw [MayFallThrough, neverFallsThrough_eq, neverFallsThroughStep, hs]
    exact List.any_eq_false.mpr fun c hmem => by simp [hguard (ih hc c hmem)]
  | @thenBranch _ _ _ elseBranch _ hs _ ih =>
    rw [MayFallThrough, neverFallsThrough_eq, neverFallsThroughStep, hs]
    cases elseBranch with
    | none => rfl
    | some elseBranch => simp only [hguard (ih hc), Bool.false_and]
  | elseBranch hs _ ih =>
    rw [MayFallThrough, neverFallsThrough_eq, neverFallsThroughStep, hs]
    simp only [hguard (ih hc), Bool.and_false]
  | noElse hs | whileLoop hs | forLoop hs | forInit hs =>
    rw [MayFallThrough, neverFallsThrough_eq, neverFallsThroughStep, hs]
  | nil => simp [MayFallThrough]
  | cons _ _ ih ihrest => exact List.forall_mem_cons.mpr ⟨ih rfl, ihrest hc⟩
  | leave _ hne => exact absurd hc hne
  | finished | broken | returned | again => trivial

/-! ## Precision -/

/-- If each of some statements has a completion like this, then so has the sequence of them. -/
theorem exists_completes_seq {P : Completion → Prop} (hnormal : P .normal) {ids : List StmtId}
    (h : ∀ id ∈ ids, ∃ c, arena.Completes (.stmt id) c ∧ P c) :
    ∃ c, arena.Completes (.seq ids) c ∧ P c := by
  induction ids with
  | nil => exact ⟨.normal, .nil, hnormal⟩
  | cons id rest ih =>
    obtain ⟨⟨c, hfirst, hc⟩, hrest⟩ := List.forall_mem_cons.mp h
    by_cases heq : c = .normal
    · obtain ⟨c', hcompletes, hc'⟩ := ih hrest
      exact ⟨c', .cons (heq ▸ hfirst) hcompletes, hc'⟩
    · exact ⟨c, .leave hfirst heq, hc⟩

/-- A `for` in the statement has a first part that is taken not to come to its end. -/
def HasClosedStart (arena : Arena) (id : StmtId) : Prop :=
  ∃ loop init cond update body, arena.Inside loop id ∧
    arena.stmt? loop = some (.forLoop (some init) cond update body) ∧
    arena.neverFallsThrough init = true

theorem HasClosedStart.child {s : Stmt} {child : StmtId} (h : arena.HasClosedStart child)
    (hs : arena.stmt? id = some s) (hchild : child ∈ s.stmtChildren) :
    arena.HasClosedStart id := by
  obtain ⟨loop, init, cond, update, body, hinside, hloop, hinit⟩ := h
  exact ⟨loop, init, cond, update, body, .child hs hchild hinside, hloop, hinit⟩

/-- Every statement has a completion. It can be one other than by `return`, unless the statement is
taken not to come to its end, or one of its loops does not begin. -/
theorem exists_completes (harena : arena.WellReferenced) (hid : id < arena.stmts.size) :
    ∃ c, arena.Completes (.stmt id) c ∧
      (c = .returned → arena.neverFallsThrough id = true ∨ arena.HasClosedStart id) := by
  induction id using Nat.strongRecOn with
  | ind id ih =>
    obtain ⟨s, hs⟩ := exists_stmt hid
    have hlt : ∀ child ∈ s.stmtChildren, child < id := harena.stmts id s hs
    have hchild : ∀ child ∈ s.stmtChildren, ∃ c, arena.Completes (.stmt child) c ∧
        (c = .returned → arena.neverFallsThrough child = true ∨ arena.HasClosedStart id) := by
      intro child hmem
      obtain ⟨c, hcompletes, hc⟩ := ih child (hlt child hmem) (Nat.lt_trans (hlt child hmem) hid)
      exact ⟨c, hcompletes, fun hret => (hc hret).imp_right fun h => h.child hs hmem⟩
    cases s with
    | block stmts =>
      have hstmts : ∃ c, arena.Completes (.seq stmts) c ∧
          (c = .returned → arena.neverFallsThrough id = true ∨ arena.HasClosedStart id) := by
        refine exists_completes_seq (by simp) fun child hmem => ?_
        obtain ⟨c, hcompletes, hc⟩ := hchild child hmem
        refine ⟨c, hcompletes, fun hret => (hc hret).imp_left fun h => ?_⟩
        rw [neverFallsThrough_block hs hlt]
        exact List.any_eq_true.mpr ⟨child, hmem, h⟩
      obtain ⟨c, hcompletes, hc⟩ := hstmts
      exact ⟨c, .block hs hcompletes, hc⟩
    | cond cond thenBranch elseBranch =>
      cases elseBranch with
      | none => exact ⟨.normal, .noElse hs, by simp⟩
      | some elseBranch =>
        obtain ⟨c, hthen, hc⟩ := hchild thenBranch (by simp)
        obtain ⟨c', helse, hc'⟩ := hchild elseBranch (by simp)
        -- Either branch will do if it can be left other than by `return`.
        by_cases hret : c = .returned
        · refine ⟨c', .elseBranch hs helse, fun hret' => ?_⟩
          obtain hfirst | hstart := hc hret
          · obtain hsecond | hstart := hc' hret'
            · left
              have hlt₁ : thenBranch < id := hlt thenBranch (by simp)
              have hlt₂ : elseBranch < id := hlt elseBranch (by simp)
              rw [neverFallsThrough_eq, neverFallsThroughStep, hs]
              simp [hlt₁, hlt₂, hfirst, hsecond]
            · exact .inr hstart
          · exact .inr hstart
        · exact ⟨c, .thenBranch hs hthen, fun h => absurd h hret⟩
    | whileLoop cond body => exact ⟨.normal, .whileLoop hs .finished, by simp⟩
    | forLoop init cond update body =>
      have hinit : ∃ c, arena.Completes (.seq init.toList) c ∧
          (c = .returned → arena.HasClosedStart id) := by
        refine exists_completes_seq (by simp) fun start hstart => ?_
        obtain ⟨c, hcompletes, hc⟩ := hchild start (by simp_all)
        refine ⟨c, hcompletes, fun hret => (hc hret).elim (fun h => ?_) fun h => h⟩
        rw [Option.mem_toList.mp hstart] at hs
        exact ⟨id, start, cond, update, body, .self, hs, h⟩
      obtain ⟨c, hcompletes, hc⟩ := hinit
      by_cases heq : c = .normal
      · exact ⟨.normal, .forLoop hs (heq ▸ hcompletes) .finished, by simp⟩
      · exact ⟨c, .forInit hs hcompletes heq, fun hret => .inr (hc hret)⟩
    | ret value =>
      refine ⟨.returned, .ret hs, fun _ => .inl ?_⟩
      rw [neverFallsThrough_eq, neverFallsThroughStep, hs]
    | breakLoop => exact ⟨.jump .exit, .breakLoop hs, by simp⟩
    | continueLoop => exact ⟨.jump .next, .continueLoop hs, by simp⟩
    | _ => exact ⟨.normal, .simple hs rfl, by simp⟩

end Arena

/-! ## Runs -/

/-- How a run completed, if it was not broken off and no step of it failed to come back. -/
def Run.completion? {ε σ : Type} (r : Run ε Jump σ) : Option Completion :=
  match r.outcome with
  | .normal _ => some .normal
  | .jump j _ => some (.jump j)
  | .returned _ => some .returned
  | _ => none

namespace Run

variable {ε σ : Type} {r : Run ε Jump σ} {c : Completion}

theorem eq_normal_of_completion? {events : List ε} {s : σ}
    (h : Run.completion? ⟨events, .normal s⟩ = some c) : c = .normal :=
  (Option.some.inj h).symm

theorem completion?_andThen {k : σ → Run ε Jump σ} (h : (r.andThen k).completion? = some c) :
    (r.completion? = some c ∧ c ≠ .normal) ∨
      (r.completion? = some .normal ∧ ∃ s, (k s).completion? = some c) := by
  obtain ⟨events, outcome⟩ := r
  cases outcome with
  | normal s => exact .inr ⟨rfl, s, h⟩
  | jump j s =>
    cases h
    exact .inl ⟨rfl, by simp⟩
  | returned s =>
    cases h
    exact .inl ⟨rfl, by simp⟩
  | _ => cases h

/-- What follows a run without ever leaving has no part in how the whole completes. -/
theorem completion?_of_andThen {k : σ → Run ε Jump σ}
    (hk : ∀ s c, (k s).completion? = some c → c = .normal)
    (h : (r.andThen k).completion? = some c) : r.completion? = some c := by
  obtain ⟨hr, -⟩ | ⟨hr, s, hnext⟩ := completion?_andThen h
  · exact hr
  · rw [hr, hk s c hnext]

theorem completion?_landing {j : Jump} (h : (r.landing j).completion? = some c) :
    (r.completion? = some c ∧ c ≠ .jump j) ∨
      (r.completion? = some (.jump j) ∧ c = .normal) := by
  obtain ⟨events, outcome⟩ := r
  cases outcome with
  | normal s =>
    cases h
    exact .inl ⟨rfl, by simp⟩
  | jump j' s =>
    by_cases heq : j' = j
    · subst heq
      simp only [landing, onJump, if_true] at h
      cases h
      exact .inr ⟨rfl, rfl⟩
    · simp only [landing, onJump, if_neg heq] at h
      cases h
      exact .inl ⟨rfl, by simp [heq]⟩
  | returned s =>
    cases h
    exact .inl ⟨rfl, by simp⟩
  | _ => cases h

end Run

namespace Source

section

variable {σ : Type} {m : AtomicMachine σ} {info : ModuleInfo} {arena : Arena}
variable {code : Frame → Leaf → Option Code} {f : Frame} {n : Nat} {s : σ} {c : Completion}

theorem perform_completes {leaf : Leaf} (h : (perform m code f leaf s).completion? = some c) :
    c = .normal := by
  unfold perform AtomicMachine.perform at h
  split at h
  · split at h
    · cases h
      rfl
    · cases h
  · cases h

theorem branchOn_completes {e : ExprId} {k : Bool → σ → Run Event Jump σ}
    (h : (branchOn m code f e s k).completion? = some c) :
    ∃ holds s', (k holds s').completion? = some c := by
  unfold branchOn AtomicMachine.branchOn at h
  split at h
  · split at h
    · exact ⟨_, _, h⟩
    · cases h
  · cases h

theorem updating_completes {update : Option ExprId}
    (h : (updating m code f update s).completion? = some c) : c = .normal := by
  cases update with
  | some e => exact perform_completes h
  | none =>
    cases h
    rfl

theorem sequence_completes {sub : StmtId → Frame → Nat → σ → Run Event Jump σ}
    (hsub : ∀ id f n s c, (sub id f n s).completion? = some c → arena.Completes (.stmt id) c)
    {stmts : List StmtId} (h : (sequence info arena sub stmts f n s).completion? = some c) :
    arena.Completes (.seq stmts) c := by
  induction stmts generalizing f s with
  | nil =>
    cases h
    exact .nil
  | cons id rest ih =>
    obtain ⟨hfirst, hne⟩ | ⟨hfirst, s', hrest⟩ := Run.completion?_andThen h
    · exact .leave (hsub id f n s c hfirst) hne
    · exact .cons (hsub id f n s .normal hfirst) (ih hrest)

theorem conditional_completes {sub : StmtId → Frame → Nat → σ → Run Event Jump σ}
    (hsub : ∀ id f n s c, (sub id f n s).completion? = some c → arena.Completes (.stmt id) c)
    {id : StmtId} {cond : ExprId} {thenBranch : StmtId} {elseBranch : Option StmtId}
    (hs : arena.stmt? id = some (.cond cond thenBranch elseBranch))
    (h : (conditional m info arena code sub id cond thenBranch elseBranch f n s).completion? =
      some c) :
    arena.Completes (.stmt id) c := by
  have hbranch := Run.completion?_of_andThen (fun s c hend => Run.eq_normal_of_completion? hend) h
  obtain ⟨holds, s', h⟩ := branchOn_completes hbranch
  cases holds with
  | true => exact .thenBranch hs (hsub _ _ _ _ _ h)
  | false =>
    cases elseBranch with
    | some elseBranch => exact .elseBranch hs (hsub _ _ _ _ _ h)
    | none =>
      cases h
      exact .noElse hs

/-- A round is left by `break` or by `return`, and otherwise another one follows. -/
theorem looping_completes {cond : ExprId} {body : StmtId} {run : Nat → σ → Run Event Jump σ}
    (hbody : ∀ n s c, (run n s).completion? = some c → arena.Completes (.stmt body) c)
    {update : σ → Run Event Jump σ} (hupdate : ∀ s c, (update s).completion? = some c → c = .normal)
    (h : (looping m code f cond run update n s).completion? = some c) :
    arena.Completes (.rounds body) c := by
  -- Among the rounds a `break` is still a jump: it lands only where the whole loop ends.
  have hrounds : ∀ n s c, (rounds m code f cond run update n s).completion? = some c →
      arena.Completes (.rounds body) (if c = .jump .exit then .normal else c) := by
    intro n
    induction n with
    | zero =>
      intro s c h
      cases h
    | succ n ih =>
      intro s c h
      obtain ⟨holds, s₁, h⟩ := branchOn_completes h
      cases holds with
      | false =>
        cases h
        exact .finished
      | true =>
        obtain ⟨hround, hne⟩ | ⟨hround, s₂, h⟩ := Run.completion?_andThen h
        · obtain ⟨hround, hnext⟩ | ⟨-, rfl⟩ := Run.completion?_landing hround
          · have hcompletes := hbody _ _ _ hround
            cases c with
            | normal => exact absurd rfl hne
            | returned => exact .returned hcompletes
            | jump j =>
              cases j with
              | exit => exact .broken hcompletes
              | next => exact absurd rfl hnext
          · exact absurd rfl hne
        · obtain ⟨hupdated, hne⟩ | ⟨-, s₃, h⟩ := Run.completion?_andThen h
          · exact absurd (hupdate s₂ c hupdated) hne
          · obtain ⟨hround, -⟩ | ⟨hround, -⟩ := Run.completion?_landing hround
            · exact .again (hbody _ _ _ hround) (.inl rfl) (ih s₃ c h)
            · exact .again (hbody _ _ _ hround) (.inr rfl) (ih s₃ c h)
  obtain ⟨hloop, hne⟩ | ⟨hloop, rfl⟩ := Run.completion?_landing h
  · simpa [hne] using hrounds n s c hloop
  · simpa using hrounds n s _ hloop

/-- However the steps of a machine go, a run that comes to its end is one of the executions. -/
theorem exec_completes {id : StmtId} (h : (exec m info arena code id f n s).completion? = some c) :
    arena.Completes (.stmt id) c := by
  induction id using Nat.strongRecOn generalizing f n s c with
  | ind id ih =>
    -- What the guard answers for other ids completes in no way, so no child has to be earlier.
    have hsub (child : StmtId) (f : Frame) (n : Nat) (s : σ) (c : Completion)
        (h : ((if child < id then exec m info arena code child
          else fun _ _ _ => .ended .aborted) f n s).completion? = some c) :
        arena.Completes (.stmt child) c := by
      split at h
      · next hlt => exact ih child hlt h
      · cases h
    rw [exec_eq] at h
    unfold execStep at h
    cases hs : arena.stmt? id with
    | none =>
      rw [hs] at h
      cases h
    | some stmt =>
      rw [hs] at h
      cases stmt with
      | block stmts => exact .block hs (sequence_completes hsub h)
      | letting decl | expr e =>
        cases perform_completes h
        exact .simple hs rfl
      | cond cond thenBranch elseBranch => exact conditional_completes hsub hs h
      | whileLoop cond body =>
        exact .whileLoop hs
          (looping_completes (hsub body f) (fun _ _ h => Run.eq_normal_of_completion? h) h)
      | forLoop init cond update body =>
        obtain ⟨hinit, hne⟩ | ⟨hinit, s', h⟩ := Run.completion?_andThen h
        · exact .forInit hs (sequence_completes hsub hinit) hne
        · exact .forLoop hs (sequence_completes hsub hinit)
            (looping_completes (hsub body _) (fun s c => updating_completes) h)
      | ret value =>
        cases value with
        | none =>
          cases h
          exact .ret hs
        | some e =>
          obtain ⟨hvalue, hne⟩ | ⟨-, s', h⟩ := Run.completion?_andThen h
          · exact absurd (perform_completes hvalue) hne
          · cases h
            exact .ret hs
      | breakLoop =>
        cases h
        exact .breakLoop hs
      | continueLoop =>
        cases h
        exact .continueLoop hs
      | _ => cases h

/-- A run of a statement whose end is out of reach does not come out at its end. -/
theorem exec_ne_normal (m : AtomicMachine σ) (info : ModuleInfo) (arena : Arena)
    (code : Frame → Leaf → Option Code) {id : StmtId} (h : arena.neverFallsThrough id = true)
    (f : Frame) (n : Nat) (s s' : σ) :
    (exec m info arena code id f n s).outcome ≠ .normal s' := by
  intro hend
  have hnormal : (exec m info arena code id f n s).completion? = some .normal := by
    rw [Run.completion?, hend]
  have hmay : arena.neverFallsThrough id = false := (exec_completes hnormal).mayFallThrough rfl
  rw [h] at hmay
  cases hmay

end

end Source

/-- `neverFallsThrough` is right about every execution, and a stricter analysis than `returns` only
where there are loops or functions. -/
theorem fallthrough_analysis_sound (m : Module) (hm : m.validate = .ok ()) (id : StmtId) :
    (m.arena.neverFallsThrough id = true → ∀ c, m.arena.Completes (.stmt id) c →
      c = .returned ∨ c = .jump .exit ∨ c = .jump .next) ∧
    (∀ (σ : Type) (machine : AtomicMachine σ) (info : ModuleInfo)
      (code : Frame → Leaf → Option Code) (f : Frame) (n : Nat) (s : σ) (c : Completion),
      (Source.exec machine info m.arena code id f n s).completion? = some c →
        m.arena.Completes (.stmt id) c) ∧
    (m.arena.neverFallsThrough id = true → m.arena.returns id = true) ∧
    ((∀ inner s, m.arena.Inside inner id → m.arena.stmt? inner = some s →
      s.isLoop = false ∧ s.isFunction = false) →
        m.arena.neverFallsThrough id = m.arena.returns id) ∧
    (id < m.arena.stmts.size → (∃ c, m.arena.Completes (.stmt id) c) ∧
      (m.arena.neverFallsThrough id = false → ¬m.arena.HasClosedStart id →
        ∃ c, m.arena.Completes (.stmt id) c ∧ c ≠ .returned)) := by
  refine ⟨?_, fun _ _ _ _ _ _ _ _ => Source.exec_completes, Arena.returns_of_neverFallsThrough,
    Arena.neverFallsThrough_eq_returns, ?_⟩
  · intro hclosed c hcompletes
    cases c with
    | normal =>
      have hmay : m.arena.neverFallsThrough id = false := hcompletes.mayFallThrough rfl
      rw [hclosed] at hmay
      cases hmay
    | jump j =>
      cases j with
      | exit => exact .inr (.inl rfl)
      | next => exact .inr (.inr rfl)
    | returned => exact .inl rfl
  · intro hid
    -- A way out is put together from the bottom up; it returns only where it has to.
    obtain ⟨c, hcompletes, hc⟩ :=
      Arena.exists_completes (Module.validate_ok_iff.mp hm).arena hid
    refine ⟨⟨c, hcompletes⟩, fun hopen hstart => ⟨c, hcompletes, fun hret => ?_⟩⟩
    obtain hclosed | h := hc hret
    · rw [hopen] at hclosed
      cases hclosed
    · exact hstart h

/-- A loop whose body goes on to a `return` only behind a `break`. -/
def brokenOff : Module where
  name := "brokenOff"
  items := [4]
  arena := {
    exprs := #[.bool true]
    stmts := #[.breakLoop, .ret none, .block [0, 1], .whileLoop 0 2,
      .function ⟨"first", [], .void, 3, true⟩] }

/-- The end of its body is out of reach, and the body can be left other than by `return`. The end
of the loop is not out of reach. -/
theorem brokenOff_analysed :
    brokenOff.arena.neverFallsThrough 2 = true ∧
      brokenOff.arena.Completes (.stmt 2) (.jump .exit) ∧
      (∀ c, brokenOff.arena.Completes (.stmt 2) c →
        c = .returned ∨ c = .jump .exit ∨ c = .jump .next) ∧
      brokenOff.arena.returns 2 = true ∧
      brokenOff.arena.neverFallsThrough 2 = brokenOff.arena.returns 2 ∧
      brokenOff.arena.returns 3 = true ∧
      ∃ c, brokenOff.arena.Completes (.stmt 3) c ∧ c ≠ .returned := by
  have hvalid : brokenOff.validate = .ok () := rfl
  have harena := (Module.validate_ok_iff.mp hvalid).arena
  have hclosed : brokenOff.arena.neverFallsThrough 2 = true := by decide +kernel
  have hbody := fallthrough_analysis_sound brokenOff hvalid 2
  have hloop := fallthrough_analysis_sound brokenOff hvalid 3
  refine ⟨hclosed, .block rfl (.leave (.breakLoop rfl) (by simp)), hbody.1 hclosed,
    hbody.2.2.1 hclosed, hbody.2.2.2.1 ?_, by decide +kernel,
    (hloop.2.2.2.2 (by decide)).2 (by decide +kernel) ?_⟩
  · intro inner s hinside hs
    have hnone : ∀ id < 3, ∀ t ∈ brokenOff.arena.stmt? id,
        t.isLoop = false ∧ t.isFunction = false := by decide +kernel
    exact hnone inner (Nat.lt_succ_of_le (hinside.le harena)) s hs
  · rintro ⟨loop, init, cond, update, body, -, hfor, -⟩
    have hmem := Array.mem_of_getElem? hfor
    simp [brokenOff] at hmem

end WasmBackend
