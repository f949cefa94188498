import WasmBackend.Proofs.Control.Source
import WasmBackend.Proofs.Shapes

/-!
# The shape of lowered statements

`Lowers` says what a statement is lowered to, without the monad: one rule for each kind of
statement, with the states before and after. `Lowers.of_ok` reads it off a lowering that succeeded.
Whatever holds of all lowered code is then an induction on these rules.

Statements are taken as sequences, a single one as a sequence of length one, because a block hands
its position at the end of the function to its last statement only. What the code of a leaf is made
of is left to `leafCode`.
-/

namespace WasmBackend

open Compiled

namespace Lower

section

variable (info : ModuleInfo) (arena : Arena)

/-- The code of a leaf in a frame. A value that the function does not return is still computed. -/
def leafCode (f : Frame) : Leaf → Compiled Code
  | .effect e => discard ⟨info, arena, some f⟩ e
  | .condition e => condition ⟨info, arena, some f⟩ e
  | .result e =>
    if f.result.lane = .void then discard ⟨info, arena, some f⟩ e
    else asLane ⟨info, arena, some f⟩ e f.result.lane
  | .binding decl => (letCode ⟨info, arena, some f⟩ f.locals decl).map Prod.fst

variable {info arena}

/-- What the rules keep holds of the code of a leaf, if it holds of the code of a `let`. -/
theorem leafCode_composed {Q : Code → Prop} {f : Frame} {leaf : Leaf} {code : Code}
    (hq : Scope.Composes ⟨info, arena, some f⟩ True Q)
    (hbinding : ∀ decl r, leaf = .binding decl →
      letCode ⟨info, arena, some f⟩ f.locals decl = .ok r → Q r.1)
    (h : leafCode info arena f leaf = .ok code) : Q code := by
  cases leaf with
  | effect e => exact hq.discard trivial h
  | condition e => exact hq.condition trivial h
  | result e =>
    simp only [leafCode] at h
    split at h
    · exact hq.discard trivial h
    · exact hq.asLane (.inl trivial) h
  | binding decl =>
    obtain ⟨r, hr, rfl⟩ := map_ok.mp h
    exact hbinding decl r rfl hr

theorem leafCode_ne_nil {f : Frame} {leaf : Leaf} {code : Code}
    (h : leafCode info arena f leaf = .ok code) : code ≠ .nil :=
  leafCode_composed (Q := (· ≠ .nil)) (Scope.composes_ne_nil _) (fun _ _ _ => letCode_ne_nil) h

variable (info arena)

/-! ## Expressions do not see the loops around them -/

section Loops

variable (f : Frame) (loops : List LoopLabels) (sub : ExprId → Compiled Code)

theorem argumentsWith_withLoops (args : List (ExprId × Lane)) :
    argumentsWith ⟨info, arena, some { f with loops := loops }⟩ sub args =
      argumentsWith ⟨info, arena, some f⟩ sub args := by
  induction args with
  | nil => rfl
  | cons arg rest ih =>
    simp only [argumentsWith, ih]
    rfl

theorem callWith_withLoops (callee : String) (args : List ExprId) :
    callWith ⟨info, arena, some { f with loops := loops }⟩ sub callee args =
      callWith ⟨info, arena, some f⟩ sub callee args := by
  simp only [callWith, argumentsWith_withLoops]
  rfl

theorem lower_withLoops :
    Lower.lower ⟨info, arena, some { f with loops := loops }⟩ =
      Lower.lower ⟨info, arena, some f⟩ := by
  have hstep : lowerStep ⟨info, arena, some { f with loops := loops }⟩ =
      lowerStep ⟨info, arena, some f⟩ := by
    funext id sub
    simp only [lowerStep, callWith_withLoops]
    rfl
  unfold Lower.lower
  rw [hstep]

theorem asLane_withLoops :
    asLane ⟨info, arena, some { f with loops := loops }⟩ = asLane ⟨info, arena, some f⟩ := by
  funext id lane
  unfold asLane
  rw [lower_withLoops]
  rfl

theorem discard_withLoops (id : ExprId) :
    discard ⟨info, arena, some { f with loops := loops }⟩ id =
      discard ⟨info, arena, some f⟩ id := by
  simp only [discard, lower_withLoops, callWith_withLoops]
  rfl

theorem initMembers_withLoops (name : String) (fields : List FieldInit)
    (entries : List (String × MemberLayout)) :
    initMembers ⟨info, arena, some { f with loops := loops }⟩ name fields entries =
      initMembers ⟨info, arena, some f⟩ name fields entries := by
  induction entries with
  | nil => rfl
  | cons entry rest ih => simp only [initMembers, initMember, ih, asLane_withLoops]

theorem leafCode_withLoops (leaf : Leaf) :
    leafCode info arena { f with loops := loops } leaf = leafCode info arena f leaf := by
  cases leaf with
  | effect e => exact discard_withLoops info arena f loops e
  | condition e =>
    simp only [leafCode, condition, lower_withLoops]
    rfl
  | result e => simp only [leafCode, discard_withLoops, asLane_withLoops]
  | binding decl =>
    simp only [leafCode, letCode, lower_withLoops, initMembers_withLoops, asLane_withLoops]
    rfl

end Loops

/-! ## Pieces of lowered statements -/

/-- The type that a conditional is declared to yield. -/
def yields? (f : Frame) (id : StmtId) : Option ValType :=
  if arena.returns id then f.result.lane.valType? else none

/-- An arm with the end that it gets in a conditional that yields. -/
def closedArm (arm : StmtId) (yields : Bool) (body : Body) : Body :=
  if yields && !arena.neverFallsThrough arm then body ++ .unreachable .done else body

/-- What follows a conditional. -/
def afterCond (yields tail : Bool) : Body :=
  if yields && !tail then .unreachable .done else .done

/-- One round of a loop. -/
def loopRound (labels : LoopLabels) (code : Code) (inner step : Body) : Body :=
  .branchUnless code labels.exit (inner ++ step ++ .branch labels.again .done)

/-- The loop that both kinds of loops become. -/
def loopBody (labels : LoopLabels) (code : Code) (inner step : Body) : Body :=
  .block labels.exit (.loop labels.again (loopRound labels code inner step) .done) .done

/-- The update of a loop. -/
def updateBody (f : Frame) : Option ExprId → Compiled Body
  | some e => (leafCode info arena f (.effect e)).map fun code => .run code .done
  | none => .ok .done

end

end Lower

namespace LowerState

/-- Draws labels for a loop and enters it. -/
def enter (s : LowerState) (draw : LabelSupply → LoopLabels × LabelSupply) : LowerState :=
  ⟨s.frame.enterLoop (draw s.labels).1, (draw s.labels).2⟩

def exit (s : LowerState) : LowerState := { s with frame := s.frame.exitLoop }

def reveal (s : LowerState) (names : List String) : LowerState :=
  { s with frame := s.frame.revealAll names }

end LowerState

open Lower

/-- A sequence of statements is lowered to this code. `tail` tells whether the function ends right
after it. -/
inductive Lowers (info : ModuleInfo) (arena : Arena) :
    List StmtId → Bool → LowerState → Body → LowerState → Prop
  | nil {tail : Bool} {s : LowerState} : Lowers info arena [] tail s .done s
  | cons {first second : StmtId} {rest : List StmtId} {tail : Bool} {s s₁ s₂ : LowerState}
      {a b : Body} (hfirst : Lowers info arena [first] false s a s₁)
      (hrest : Lowers info arena (second :: rest) tail s₁ b s₂) :
      Lowers info arena (first :: second :: rest) tail s (a ++ b) s₂
  | block {id : StmtId} {stmts : List StmtId} {tail : Bool} {s s' : LowerState} {body : Body}
      (hs : arena.stmt? id = some (.block stmts)) (hlt : ∀ c ∈ stmts, c < id)
      (hstmts : Lowers info arena stmts tail s body s') : Lowers info arena [id] tail s body s'
  | letting {id : StmtId} {decl : LetDecl} {tail : Bool} {s : LowerState} {code : Code}
      (hs : arena.stmt? id = some (.letting decl))
      (hcode : leafCode info arena s.frame (.binding decl) = .ok code) :
      Lowers info arena [id] tail s (.run code .done) (s.reveal (Source.letNames info arena decl))
  | cond {id thenBranch : StmtId} {cond : ExprId} {tail : Bool} {s s' : LowerState}
      {code : Code} {arm : Body}
      (hs : arena.stmt? id = some (.cond cond thenBranch none)) (hlt : thenBranch < id)
      (hcode : leafCode info arena s.frame (.condition cond) = .ok code)
      (harm : Lowers info arena [thenBranch] false s arm s') :
      Lowers info arena [id] tail s
        (.cond code (yields? arena s.frame id)
          (closedArm arena thenBranch (yields? arena s.frame id).isSome arm)
          (afterCond (yields? arena s.frame id).isSome tail)) s'
  | condElse {id thenBranch elseBranch : StmtId} {cond : ExprId} {tail : Bool}
      {s s₁ s₂ : LowerState} {code : Code} {thenArm elseArm : Body}
      (hs : arena.stmt? id = some (.cond cond thenBranch (some elseBranch)))
      (hthenLt : thenBranch < id) (helseLt : elseBranch < id)
      (hcode : leafCode info arena s.frame (.condition cond) = .ok code)
      (hthen : Lowers info arena [thenBranch] false s thenArm s₁)
      (helse : Lowers info arena [elseBranch] false s₁ elseArm s₂) :
      Lowers info arena [id] tail s
        (.condElse code (yields? arena s.frame id)
          (closedArm arena thenBranch (yields? arena s.frame id).isSome thenArm)
          (closedArm arena elseBranch (yields? arena s.frame id).isSome elseArm)
          (afterCond (yields? arena s.frame id).isSome tail)) s₂
  | whileLoop {id body : StmtId} {cond : ExprId} {tail : Bool} {s s' : LowerState} {code : Code}
      {inner : Body} (hs : arena.stmt? id = some (.whileLoop cond body)) (hlt : body < id)
      (hcode : leafCode info arena s.frame (.condition cond) = .ok code)
      (hbody : Lowers info arena [body] false (s.enter LabelSupply.whileLoop) inner s') :
      Lowers info arena [id] tail s (loopBody s.labels.whileLoop.1 code inner .done) s'.exit
  | forLoop {id body : StmtId} {init : Option StmtId} {cond : ExprId} {update : Option ExprId}
      {tail : Bool} {s s₁ s₂ : LowerState} {code : Code} {start inner step : Body}
      (hs : arena.stmt? id = some (.forLoop init cond update body))
      (hinitLt : ∀ c ∈ init, c < id) (hlt : body < id)
      (hinit : Lowers info arena init.toList false s start s₁)
      (hcode : leafCode info arena s₁.frame (.condition cond) = .ok code)
      (hbody : Lowers info arena [body] false (s₁.enter LabelSupply.forLoop) inner s₂)
      (hstep : updateBody info arena s₂.exit.frame update = .ok step) :
      Lowers info arena [id] tail s
        (start ++ loopBody s₁.labels.forLoop.1 code
          (.block s₁.labels.forLoop.1.next inner .done) step) s₂.exit
  | retNothing {id : StmtId} {tail : Bool} {s : LowerState}
      (hs : arena.stmt? id = some (.ret none)) : Lowers info arena [id] tail s (.ret .nil .done) s
  | ret {id : StmtId} {e : ExprId} {tail : Bool} {s : LowerState} {code : Code}
      (hs : arena.stmt? id = some (.ret (some e)))
      (hcode : leafCode info arena s.frame (.result e) = .ok code) :
      Lowers info arena [id] tail s (.ret code .done) s
  | breakLoop {id : StmtId} {tail : Bool} {s : LowerState} {labels : LoopLabels}
      (hs : arena.stmt? id = some .breakLoop) (hl : s.frame.innermostLoop? = some labels) :
      Lowers info arena [id] tail s (.branch labels.exit .done) s
  | continueLoop {id : StmtId} {tail : Bool} {s : LowerState} {labels : LoopLabels}
      (hs : arena.stmt? id = some .continueLoop) (hl : s.frame.innermostLoop? = some labels) :
      Lowers info arena [id] tail s (.branch labels.next .done) s
  | expr {id : StmtId} {e : ExprId} {tail : Bool} {s : LowerState} {code : Code}
      (hs : arena.stmt? id = some (.expr e))
      (hcode : leafCode info arena s.frame (.effect e) = .ok code) :
      Lowers info arena [id] tail s (.run code .done) s

/-! ## Reading the rules off a lowering -/

section

variable {info : ModuleInfo} {arena : Arena} {s s' : LowerState} {tail : Bool} {body : Body}
variable {f : Frame} {cond : ExprId}

/-- The names that the code of a `let` makes visible are those of the language. -/
theorem letCode_names {sc : Scope} {locals : Table String Variable} {decl : LetDecl} {code : Code}
    {names : List String} (h : letCode sc locals decl = .ok (code, names)) :
    names = Source.letNames sc.info sc.arena decl := by
  unfold letCode at h
  obtain ⟨e, he, h⟩ := bind_ok.mp h
  unfold Source.letNames
  rw [Scope.expr_eq_ok.mp he]
  cases e with
  | struct structName fields =>
    simp only [bind_ok, pure_ok] at h
    obtain ⟨layout, hlayout, -, -, address, -, members, -, hpair⟩ := h
    cases hpair
    simp only [hlayout]
  | _ =>
    simp only at h ⊢
    split at h
    · cases h
    · simp only [bind_ok, pure_ok] at h
      obtain ⟨value, -, hpair⟩ := h
      cases hpair
      rfl

theorem innermostLoop_ok {statement : String} {labels : LoopLabels}
    (h : innermostLoop statement s = .ok labels s') :
    s.frame.innermostLoop? = some labels ∧ s = s' := by
  simp only [innermostLoop, EStateM.bind_ok, EStateM.get_ok] at h
  obtain ⟨_, _, ⟨rfl, rfl⟩, h⟩ := h
  cases hl : s.frame.innermostLoop? with
  | none => simp only [hl, EStateM.throw_ok] at h
  | some l =>
    simp only [hl, EStateM.pure_ok] at h
    exact ⟨by rw [h.1], h.2⟩

section Step

variable {sub : StmtId → Bool → LowerM Body} {id : StmtId}
variable (hsub : ∀ c tail s b s', sub c tail s = .ok b s' →
  c < id ∧ Lowers info arena [c] tail s b s')

include hsub

theorem lowerBlock_ok {stmts : List StmtId} (h : lowerBlock sub tail stmts s = .ok body s') :
    (∀ c ∈ stmts, c < id) ∧ Lowers info arena stmts tail s body s' := by
  induction stmts generalizing s body with
  | nil =>
    simp only [lowerBlock, EStateM.pure_ok] at h
    obtain ⟨rfl, rfl⟩ := h
    exact ⟨by simp, .nil⟩
  | cons first rest ih =>
    cases rest with
    | nil =>
      obtain ⟨hlt, hl⟩ := hsub first tail s body s' h
      exact ⟨by simpa using hlt, hl⟩
    | cons second rest =>
      simp only [lowerBlock, EStateM.bind_ok, LowerM.afterWriting_ok, EStateM.pure_ok] at h
      obtain ⟨a, s₁, hfirst, b, s₂, hrest, rfl, rfl⟩ := h
      obtain ⟨hlt, hl⟩ := hsub first false s a s₁ hfirst
      obtain ⟨hlts, hls⟩ := ih hrest
      exact ⟨List.forall_mem_cons.mpr ⟨hlt, hlts⟩, .cons hl hls⟩

theorem lowerArm_ok {arm : StmtId} {yields : Bool}
    (h : lowerArm arena sub arm yields s = .ok body s') :
    ∃ inner, arm < id ∧ Lowers info arena [arm] false s inner s' ∧
      body = closedArm arena arm yields inner := by
  simp only [lowerArm, EStateM.bind_ok] at h
  obtain ⟨inner, s₁, hinner, h⟩ := h
  obtain ⟨hlt, hl⟩ := hsub arm false s inner s₁ hinner
  refine ⟨inner, hlt, ?_⟩
  unfold closedArm
  split at h <;> rename_i hy <;>
    simp only [hy, EStateM.pure_ok, Bool.false_eq_true, ↓reduceIte] at h ⊢ <;>
    obtain ⟨rfl, rfl⟩ := h <;> exact ⟨hl, rfl⟩

/-- The arms are lowered one after the other, the second in the state that the first one leaves. -/
theorem lowerCond_ok {thenBranch : StmtId} {elseBranch : Option StmtId}
    (hs : arena.stmt? id = some (.cond cond thenBranch elseBranch))
    (h : lowerCond info arena sub id cond thenBranch elseBranch tail s = .ok body s') :
    Lowers info arena [id] tail s body s' := by
  simp only [lowerCond, EStateM.bind_ok, EStateM.get_ok, LowerM.frameScope_ok, LowerM.ofCompiled_ok,
    LowerM.afterWriting_ok] at h
  obtain ⟨_, _, ⟨rfl, rfl⟩, _, _, ⟨rfl, rfl⟩, code, _, ⟨hcode, rfl⟩, thenArm, s₁, hthen, h⟩ := h
  obtain ⟨thenInner, hthenLt, hthenArm, rfl⟩ := lowerArm_ok hsub hthen
  cases elseBranch with
  | none =>
    simp only [EStateM.pure_ok] at h
    obtain ⟨rfl, rfl⟩ := h
    exact .cond hs hthenLt hcode hthenArm
  | some elseBranch =>
    simp only [EStateM.bind_ok, LowerM.afterWriting_ok, EStateM.pure_ok] at h
    obtain ⟨elseArm, s₂, helse, rfl, rfl⟩ := h
    obtain ⟨elseInner, helseLt, helseArm, rfl⟩ := lowerArm_ok hsub helse
    exact .condElse hs hthenLt helseLt hcode hthenArm helseArm

/-- Both kinds of loops. -/
theorem lowerLoop_ok {labels : LoopLabels} {body : StmtId} {isFor : Bool} {update : Option ExprId}
    {code : Body} (h : lowerLoop info arena sub labels cond body isFor update s = .ok code s') :
    ∃ test inner step s₁, body < id ∧
      leafCode info arena s.frame (.condition cond) = .ok test ∧
      Lowers info arena [body] false { s with frame := s.frame.enterLoop labels } inner s₁ ∧
      updateBody info arena s₁.exit.frame update = .ok step ∧ s' = s₁.exit ∧
      code = loopBody labels test (if isFor then .block labels.next inner .done else inner)
        step := by
  simp only [lowerLoop, EStateM.bind_ok, LowerM.frameScope_ok, LowerM.ofCompiled_ok,
    LowerM.afterWriting_ok, LowerM.insideLoop_ok, EStateM.pure_ok] at h
  obtain ⟨_, _, ⟨rfl, rfl⟩, test, _, ⟨htest, rfl⟩, inner, _, ⟨s₁, hinner, rfl⟩, _, _, ⟨rfl, rfl⟩,
    step, s₂, hstep, rfl, rfl⟩ := h
  -- What was written so far only matters for errors, and there was none.
  obtain ⟨hlt, hl⟩ := hsub body false _ inner s₁ hinner
  cases update with
  | none =>
    simp only [EStateM.pure_ok] at hstep
    obtain ⟨rfl, rfl⟩ := hstep
    exact ⟨test, inner, _, s₁, hlt, htest, hl, rfl, rfl, rfl⟩
  | some e =>
    simp only [EStateM.bind_ok, LowerM.ofCompiled_ok, EStateM.pure_ok] at hstep
    obtain ⟨code, _, ⟨hcode, rfl⟩, rfl, rfl⟩ := hstep
    exact ⟨test, inner, _, s₁, hlt, htest, hl, map_ok.mpr ⟨code, hcode, rfl⟩, rfl, rfl⟩

/-- The loop itself, once its start has been lowered. -/
theorem lowerFor_ok {init : Option StmtId} {update : Option ExprId} {body : StmtId}
    {s₁ : LowerState} {start code : Body}
    (hs : arena.stmt? id = some (.forLoop init cond update body)) (hinitLt : ∀ c ∈ init, c < id)
    (hinit : Lowers info arena init.toList false s start s₁)
    (h : lowerLoop info arena sub s₁.labels.forLoop.1 cond body true update
      { s₁ with labels := s₁.labels.forLoop.2 } = .ok code s') :
    Lowers info arena [id] tail s (start ++ code) s' := by
  obtain ⟨test, inner, step, s₂, hlt, htest, hl, hstep, rfl, rfl⟩ := lowerLoop_ok hsub h
  exact .forLoop hs hinitLt hlt hinit htest hl hstep

theorem lowerStmtStep_ok (h : lowerStmtStep info arena id sub tail s = .ok body s') :
    Lowers info arena [id] tail s body s' := by
  unfold lowerStmtStep at h
  cases hs : arena.stmt? id with
  | none => simp only [hs, EStateM.throw_ok] at h
  | some stmt =>
    simp only [hs] at h
    cases stmt with
    | block stmts =>
      obtain ⟨hlt, hl⟩ := lowerBlock_ok hsub h
      exact .block hs hlt hl
    | letting decl =>
      simp only [lowerLet, EStateM.bind_ok, LowerM.frameScope_ok, EStateM.get_ok,
        LowerM.ofCompiled_ok, LowerM.modifyFrame_ok, EStateM.pure_ok] at h
      obtain ⟨_, _, ⟨rfl, rfl⟩, _, _, ⟨rfl, rfl⟩, ⟨code, names⟩, _, ⟨hcode, rfl⟩, _, _, rfl, rfl,
        rfl⟩ := h
      rw [letCode_names hcode]
      exact .letting hs (map_ok.mpr ⟨_, hcode, rfl⟩)
    | cond cond thenBranch elseBranch => exact lowerCond_ok hsub hs h
    | whileLoop cond body =>
      simp only [EStateM.bind_ok, LowerM.freshLabels_ok] at h
      obtain ⟨_, _, ⟨rfl, rfl⟩, h⟩ := h
      obtain ⟨test, inner, step, s₁, hlt, htest, hl, hstep, rfl, rfl⟩ := lowerLoop_ok hsub h
      cases hstep
      exact .whileLoop hs hlt htest hl
    -- Without a start the loop is lowered in the state in which it was come to.
    | forLoop init cond update body =>
      cases init with
      | none =>
        simp only [EStateM.bind_ok, LowerM.afterWriting_ok, LowerM.freshLabels_ok,
          EStateM.pure_ok] at h
        obtain ⟨_, _, ⟨rfl, rfl⟩, _, _, ⟨rfl, rfl⟩, code, _, hloop, rfl, rfl⟩ := h
        exact lowerFor_ok hsub hs (by simp) .nil hloop
      | some init =>
        simp only [EStateM.bind_ok, LowerM.afterWriting_ok, LowerM.freshLabels_ok,
          EStateM.pure_ok] at h
        obtain ⟨start, s₁, hinit, _, _, ⟨rfl, rfl⟩, code, _, hloop, rfl, rfl⟩ := h
        obtain ⟨hltInit, hlInit⟩ := hsub init false s start s₁ hinit
        exact lowerFor_ok hsub hs (by simpa using hltInit) hlInit hloop
    | ret value =>
      simp only [lowerReturn, EStateM.bind_ok, LowerM.frameScope_ok] at h
      obtain ⟨_, _, ⟨rfl, rfl⟩, h⟩ := h
      cases value with
      | none =>
        simp only [EStateM.pure_ok] at h
        obtain ⟨rfl, rfl⟩ := h
        exact .retNothing hs
      | some e =>
        simp only [EStateM.bind_ok, EStateM.get_ok] at h
        obtain ⟨_, _, ⟨rfl, rfl⟩, h⟩ := h
        split at h <;> rename_i hlane <;>
          simp only [EStateM.bind_ok, LowerM.ofCompiled_ok, EStateM.pure_ok] at h <;>
          obtain ⟨code, _, ⟨hcode, rfl⟩, rfl, rfl⟩ := h <;>
          exact .ret hs (by simpa only [leafCode, hlane, ↓reduceIte] using hcode)
    | breakLoop =>
      simp only [EStateM.bind_ok, EStateM.pure_ok] at h
      obtain ⟨labels, _, hlabels, rfl, rfl⟩ := h
      obtain ⟨hl, rfl⟩ := innermostLoop_ok hlabels
      exact .breakLoop hs hl
    | continueLoop =>
      simp only [EStateM.bind_ok, EStateM.pure_ok] at h
      obtain ⟨labels, _, hlabels, rfl, rfl⟩ := h
      obtain ⟨hl, rfl⟩ := innermostLoop_ok hlabels
      exact .continueLoop hs hl
    | expr e =>
      simp only [EStateM.bind_ok, LowerM.frameScope_ok, LowerM.ofCompiled_ok, EStateM.pure_ok] at h
      obtain ⟨_, _, ⟨rfl, rfl⟩, code, _, ⟨hcode, rfl⟩, rfl, rfl⟩ := h
      exact .expr hs hcode
    | function _ | struct _ | importing _ => simp only [EStateM.throw_ok] at h

end Step

/-- A statement that lowers does so by the rules. -/
theorem Lowers.of_ok {id : StmtId} (h : lowerStmt info arena id tail s = .ok body s') :
    Lowers info arena [id] tail s body s' := by
  induction id using Nat.strongRecOn generalizing tail s body s' with
  | ind id ih =>
    rw [lowerStmt, descend_eq, ← lowerStmt] at h
    refine lowerStmtStep_ok (fun c tail s b s' hc => ?_) h
    by_cases hlt : c < id
    · simp only [hlt, ↓reduceIte] at hc
      exact ⟨hlt, ih c hlt hc⟩
    · simp only [hlt, ↓reduceIte, EStateM.throw_ok] at hc

/-- The body of a function with a result is closed, unless its end is out of reach. -/
theorem lowerBody_ok {id : StmtId} {code : Body} (h : lowerBody info arena id s = .ok code s') :
    ∃ body, Lowers info arena [id] true { s with frame := s.frame.hideLocals } body s' ∧
      code = if !s'.frame.result.isVoid && !arena.neverFallsThrough id
        then body ++ .unreachable .done else body := by
  simp only [lowerBody, EStateM.bind_ok, LowerM.modifyFrame_ok, EStateM.get_ok] at h
  obtain ⟨_, _, rfl, body, s₁, hbody, _, _, ⟨rfl, rfl⟩, h⟩ := h
  refine ⟨body, ?_⟩
  split at h <;> rename_i hc <;> simp only [EStateM.pure_ok] at h <;> obtain ⟨rfl, rfl⟩ := h
  · exact ⟨Lowers.of_ok hbody, by rw [if_pos hc]⟩
  · exact ⟨Lowers.of_ok hbody, by rw [if_neg hc]⟩

end

end WasmBackend
