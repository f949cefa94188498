import WasmBackend.Proofs.Control.Preservation
import WasmBackend.Proofs.Scoping.Body
import WasmBackend.Proofs.Stack.Validation

/-!
# Operand-stack validation of bodies

Structured code is validated construct by construct: each has an operand stack of its own, starts
with it empty and must end with exactly what the construct yields. After a jump the stack is
polymorphic: whatever is asked of it is there, because the code is never reached.

`Body.validate` is this test for the control flow of a body. The pieces of value code in it are
taken to do what is asked of them: a statement's code leaves nothing, a condition leaves the integer
that its branch takes off, and a return, with the code of its value, ends control.

That lowered bodies pass it rests on two things. A statement whose end is out of reach makes the
stack polymorphic, so nothing is missing at the end of an arm or of the body (`Lowers.flows`). And a
conditional that yields a value is followed by `unreachable`, unless the function ends with it, so
no value stays behind.
-/

namespace WasmBackend

open Lower

/-! ## The test -/

/-- The operand stack of a construct: the types known to be on it, top first, and whether there may
be anything below them. -/
structure OperandStack where
  values : List ValType
  polymorphic : Bool
  deriving DecidableEq, Repr

namespace OperandStack

/-- The stack at the start of a construct. -/
def empty : OperandStack := ⟨[], false⟩

/-- The stack after a jump. -/
def unreachable : OperandStack := ⟨[], true⟩

def push (σ : OperandStack) (t : ValType) : OperandStack := { σ with values := t :: σ.values }

def pop? (σ : OperandStack) (t : ValType) : Option OperandStack :=
  match σ.values with
  | [] => if σ.polymorphic then some σ else none
  | top :: rest => if top = t then some { σ with values := rest } else none

/-- May the construct end here? What it yields is taken off, and nothing may be left. -/
def ends (σ : OperandStack) : Option ValType → Bool
  | none => σ.values.isEmpty
  | some t => (σ.pop? t).any fun rest => rest.values.isEmpty

/-- The stack after code that leaves a value or none, and that may have ended control before. -/
def after (σ : OperandStack) (ended : Bool) (value : Option ValType) : OperandStack :=
  let below := if ended then unreachable else σ
  value.elim below below.push

end OperandStack

/-- The stack after a body that stands inside these labels, or nothing if the body is refused. A
branch takes no values along, so all that matters of its label is that it is around. -/
def Body.validate : List Label → Body → OperandStack → Option OperandStack
  | _, .done, σ => some σ
  | labels, .run _ rest, σ => rest.validate labels σ
  | labels, .block label inner rest, σ =>
    if (inner.validate (label :: labels) .empty).any (·.ends none) then rest.validate labels σ
    else none
  | labels, .loop label inner rest, σ =>
    if (inner.validate (label :: labels) .empty).any (·.ends none) then rest.validate labels σ
    else none
  | labels, .branch label rest, _ =>
    if label ∈ labels then rest.validate labels .unreachable else none
  | labels, .branchUnless _ label rest, σ =>
    if label ∈ labels then rest.validate labels σ else none
  -- Without a second arm there is nothing that could leave a value.
  | labels, .cond _ result thenArm rest, σ =>
    if result.isNone && (thenArm.validate labels .empty).any (·.ends none)
    then rest.validate labels σ
    else none
  | labels, .condElse _ result thenArm elseArm rest, σ =>
    if (thenArm.validate labels .empty).any (·.ends result) &&
      (elseArm.validate labels .empty).any (·.ends result)
    then rest.validate labels (σ.after false result)
    else none
  | labels, .ret _ rest, _ => rest.validate labels .unreachable
  | labels, .unreachable rest, _ => rest.validate labels .unreachable

namespace Body

/-- The body is accepted as one that yields this result. -/
def Yields (labels : List Label) (body : Body) (result : Option ValType) : Prop :=
  (body.validate labels .empty).any (·.ends result) = true

/-- The body is accepted on every stack, and this is what it does to it. -/
def Leaves (labels : List Label) (body : Body) (ended : Bool) (value : Option ValType) : Prop :=
  ∀ σ, body.validate labels σ = some (σ.after ended value)

variable {labels : List Label} {a b : Body} {ended ended' : Bool} {value : Option ValType}

theorem validate_append (labels : List Label) (a b : Body) (σ : OperandStack) :
    (a ++ b).validate labels σ = (a.validate labels σ).bind (b.validate labels) := by
  show (a.append b).validate labels σ = _
  induction a generalizing labels σ with
  | done => rfl
  | run code rest ih => exact ih labels σ
  | block label inner rest _ ih | loop label inner rest _ ih | branch label rest ih
  | branchUnless condition label rest ih | cond condition result thenArm rest _ ih
  | condElse condition result thenArm elseArm rest _ _ ih =>
    simp only [append, validate, ih]
    split <;> rfl
  | ret value rest ih | unreachable rest ih => exact ih labels _

theorem leaves_done : Leaves labels .done false none := fun _ => rfl

theorem Leaves.append (ha : a.Leaves labels ended none) (hb : b.Leaves labels ended' value) :
    (a ++ b).Leaves labels (ended || ended') value := by
  intro σ
  rw [validate_append, ha σ]
  show b.validate labels (σ.after ended none) = _
  rw [hb]
  cases ended <;> cases ended' <;> rfl

/-- Whatever comes before it, `unreachable` ends control. -/
theorem Leaves.close (ha : a.Leaves labels ended value) :
    (a ++ .unreachable .done).Leaves labels true none := by
  intro σ
  rw [validate_append, ha σ]
  rfl

/-- Code that leaves no value is accepted where none is asked for. -/
theorem Leaves.yields_none (ha : a.Leaves labels ended none) : a.Yields labels none := by
  rw [Yields, ha]
  cases ended <;> rfl

/-- Code that ends control is accepted where a value is asked for. -/
theorem Leaves.yields_of_ended (ha : a.Leaves labels true none) (t : ValType) :
    a.Yields labels (some t) := by
  rw [Yields, ha]
  rfl

/-- Code that leaves the value is accepted, whether or not its start can be reached. -/
theorem Leaves.yields_value {t : ValType} (ha : a.Leaves labels ended (some t)) :
    a.Yields labels (some t) := by
  rw [Yields, ha]
  cases ended <;> simp [OperandStack.after, OperandStack.ends, OperandStack.pop?,
    OperandStack.push, OperandStack.empty, OperandStack.unreachable]

theorem leaves_block {label : Label} (h : a.Yields (label :: labels) none) :
    Leaves labels (.block label a .done) false none := by
  intro σ
  exact if_pos h

theorem leaves_loop {label : Label} (h : a.Yields (label :: labels) none) :
    Leaves labels (.loop label a .done) false none := by
  intro σ
  exact if_pos h

theorem leaves_branch {label : Label} (h : label ∈ labels) :
    Leaves labels (.branch label .done) true none := by
  intro σ
  exact if_pos h

theorem Leaves.branchUnless {label : Label} (condition : Code) (h : label ∈ labels)
    (ha : a.Leaves labels ended value) :
    Leaves labels (.branchUnless condition label a) ended value := by
  intro σ
  rw [validate, if_pos h, ha]

theorem leaves_cond (condition : Code) (h : a.Yields labels none) :
    Leaves labels (.cond condition none a .done) false none := by
  intro σ
  exact if_pos h

theorem leaves_condElse (condition : Code) (ha : a.Yields labels value)
    (hb : b.Yields labels value) :
    Leaves labels (.condElse condition value a b .done) false value := by
  intro σ
  refine if_pos ?_
  rw [show (a.validate labels .empty).any (·.ends value) = true from ha,
    show (b.validate labels .empty).any (·.ends value) = true from hb]
  rfl

end Body

/-! ## The two flow analyses -/

namespace Arena

variable {arena : Arena} {id : StmtId}

theorem returns_cond {cond : ExprId} {thenBranch : StmtId}
    (hs : arena.stmt? id = some (.cond cond thenBranch none)) : arena.returns id = false := by
  rw [returns_eq, returnsStep, hs]

/-- The sequence ends in a conditional with two arms that both return, possibly inside blocks. -/
inductive EndsInReturningCond (arena : Arena) : List StmtId → Prop
  | cond {id thenBranch elseBranch : StmtId} {cond : ExprId}
      (hs : arena.stmt? id = some (.cond cond thenBranch (some elseBranch)))
      (hreturns : arena.returns id = true) : EndsInReturningCond arena [id]
  | block {id : StmtId} {stmts : List StmtId} (hs : arena.stmt? id = some (.block stmts))
      (hlast : EndsInReturningCond arena stmts) : EndsInReturningCond arena [id]
  | cons {first second : StmtId} {rest : List StmtId}
      (hlast : EndsInReturningCond arena (second :: rest)) :
      EndsInReturningCond arena (first :: second :: rest)

end Arena

/-! ## Lowered statements -/

/-- The labels of the loops that are open in a frame. -/
def Frame.openLabels (f : Frame) : List Label := f.loops.flatMap fun l => [l.exit, l.again, l.next]

theorem LowerState.fits_openLabels (s : LowerState) : s.Fits s.frame s.frame.openLabels where
  frame := ⟨s.frame.pending, s.frame.loops, rfl⟩
  loops l hl := by
    have hmem : ∀ label ∈ [l.exit, l.again, l.next], label ∈ s.frame.openLabels :=
      fun label hlabel => List.mem_flatMap.mpr ⟨l, hl, hlabel⟩
    exact ⟨hmem _ (by simp), hmem _ (by simp), hmem _ (by simp)⟩

theorem LowerState.Fits.result {s : LowerState} {f : Frame} {labels : List Label}
    (h : s.Fits f labels) : s.frame.result = f.result := by
  obtain ⟨pending, loops, hframe⟩ := h.frame
  rw [hframe]

theorem Ty.valType?_of_nonvoid {t : Ty} (h : t.isVoid = false) :
    t.lane.valType? = some t.valType := by
  cases t with
  | scalar s => cases s <;> rfl
  | void => cases h
  | _ => rfl

section Statements

variable {info : ModuleInfo} {arena : Arena} {f : Frame} {labels : List Label}

/-- An arm of a conditional, closed if the conditional yields: both ways it is accepted. -/
theorem closedArm_yields {arm : StmtId} {body : Body} {ended : Bool}
    (hbody : body.Leaves labels ended none)
    (hended : arena.neverFallsThrough arm = true → ended = true) (result : Option ValType) :
    (closedArm arena arm result.isSome body).Yields labels result := by
  cases result with
  | none => exact hbody.yields_none
  | some t =>
    unfold closedArm
    cases hnft : arena.neverFallsThrough arm with
    | false => exact hbody.close.yields_of_ended t
    | true =>
      rw [hended hnft] at hbody
      exact hbody.yields_of_ended t

/-- A loop is accepted if its round is, and leaves the stack as it was. -/
theorem loopBody_leaves {loop : LoopLabels} (code : Code) {inner step : Body} {ended : Bool}
    (hinner : inner.Leaves (loop.again :: loop.exit :: labels) ended none)
    (hstep : step.Leaves (loop.again :: loop.exit :: labels) false none) :
    (loopBody loop code inner step).Leaves labels false none := by
  have hround := (hinner.append hstep).append (Body.leaves_branch List.mem_cons_self)
  have hloop := Body.leaves_loop
    (hround.branchUnless code (List.mem_cons_of_mem _ List.mem_cons_self)).yields_none
  exact Body.leaves_block hloop.yields_none

theorem updateBody_leaves {g : Frame} {update : Option ExprId} {step : Body}
    (h : updateBody info arena g update = .ok step) : step.Leaves labels false none := by
  cases update with
  | none =>
    cases h
    exact Body.leaves_done
  | some e =>
    obtain ⟨code, -, rfl⟩ := Compiled.map_ok.mp h
    exact fun _ => rfl

/-- What the code of statements may do to the operand stack: leave a value only at the end of the
function, after a conditional that returns; and if the end of the statements is out of reach, then
control has ended or the value is there. -/
def Body.Flows (arena : Arena) (t : ValType) (ids : List StmtId) (tail : Bool) (labels : List Label)
    (body : Body) : Prop :=
  ∃ ended value, body.Leaves labels ended value ∧
    (value ≠ none → tail = true ∧ arena.EndsInReturningCond ids ∧ value = some t) ∧
    (ids.any arena.neverFallsThrough = true → ended = true ∨ value ≠ none)

/-- Before the end of the function, no value is left. -/
theorem Body.Flows.plain {t : ValType} {ids : List StmtId} {body : Body}
    (h : body.Flows arena t ids false labels) :
    ∃ ended, body.Leaves labels ended none ∧
      (ids.any arena.neverFallsThrough = true → ended = true) := by
  obtain ⟨ended, value, hleaves, hvalue, hended⟩ := h
  cases value with
  | some t => exact absurd (hvalue (by simp)).1 (by simp)
  | none => exact ⟨ended, hleaves, fun hnft => (hended hnft).resolve_right (by simp)⟩

/-- A statement whose end may be reached, and whose code leaves no value. -/
theorem Body.Leaves.flows {t : ValType} {id : StmtId} {tail ended : Bool} {body : Body}
    (h : body.Leaves labels ended none) {stmt : Stmt} (hstmt : arena.stmt? id = some stmt)
    (hret : ∀ value, stmt ≠ .ret value) (hblock : ∀ stmts, stmt ≠ .block stmts)
    (hcond : ∀ c thenBranch elseBranch, stmt ≠ .cond c thenBranch (some elseBranch)) :
    body.Flows arena t [id] tail labels := by
  have hnever : [id].any arena.neverFallsThrough = false := by
    rw [List.any_cons, List.any_nil, Bool.or_false, Arena.neverFallsThrough_eq,
      Arena.neverFallsThroughStep, hstmt]
    split <;> simp_all
  exact ⟨ended, none, h, by simp, by simp [hnever]⟩

/-- A statement whose code ends control. -/
theorem Body.Leaves.flows_of_ended {t : ValType} {ids : List StmtId} {tail : Bool} {body : Body}
    (h : body.Leaves labels true none) : body.Flows arena t ids tail labels :=
  ⟨true, none, h, by simp, fun _ => .inl rfl⟩

/-- The induction is on the rules of lowering; the labels grow where a loop is entered. -/
theorem Lowers.flows (hresult : f.result.isVoid = false) {ids : List StmtId} {tail : Bool}
    {s s' : LowerState} {body : Body} (h : Lowers info arena ids tail s body s')
    {labels : List Label} (hs : s.Fits f labels) :
    body.Flows arena f.result.valType ids tail labels := by
  induction h generalizing labels with
  | nil => exact ⟨false, none, Body.leaves_done, by simp, by simp⟩
  | cons hfirst hrest ihFirst ihRest =>
    obtain ⟨ended, hleaves, hended⟩ := (ihFirst hs).plain
    obtain ⟨ended', value, hleaves', hvalue, hended'⟩ := ihRest (hs.lowers hfirst)
    refine ⟨ended || ended', value, hleaves.append hleaves', ?_, ?_⟩
    · intro hne
      obtain ⟨htail, hlast, heq⟩ := hvalue hne
      exact ⟨htail, .cons hlast, heq⟩
    · intro hnft
      rw [List.any_cons, Bool.or_eq_true] at hnft
      rcases hnft with hnft | hnft
      · simp [hended (by simpa using hnft)]
      · rcases hended' hnft with hended' | hne
        · simp [hended']
        · exact .inr hne
  | block hstmt hlt _ ih =>
    obtain ⟨ended, value, hleaves, hvalue, hended⟩ := ih hs
    refine ⟨ended, value, hleaves, ?_, ?_⟩
    · intro hne
      obtain ⟨htail, hlast, heq⟩ := hvalue hne
      exact ⟨htail, .block hstmt hlast, heq⟩
    · intro hnft
      rw [List.any_cons, List.any_nil, Bool.or_false,
        Arena.neverFallsThrough_block hstmt hlt] at hnft
      exact hended hnft
  | letting hstmt _ | expr hstmt _ =>
    have hleaves : ∀ code, Body.Leaves labels (.run code .done) false none := fun _ _ => rfl
    exact (hleaves _).flows hstmt (by simp) (by simp) (by simp)
  | @cond _ _ _ _ _ _ code _ hstmt _ _ _ ih =>
    obtain ⟨ended, hleaves, -⟩ := (ih hs).plain
    have hcond := Body.leaves_cond code hleaves.yields_none
    -- Without a second arm the conditional yields nothing.
    simp only [yields?, Arena.returns_cond hstmt, Bool.false_eq_true, if_false]
    exact hcond.flows hstmt (by simp) (by simp) (by simp)
  | @condElse id thenBranch elseBranch cond tail s s₁ s₂ code thenArm elseArm hstmt hthenLt helseLt
      hcode hthen helse ihThen ihElse =>
    obtain ⟨endedThen, hleavesThen, hendedThen⟩ := (ihThen hs).plain
    obtain ⟨endedElse, hleavesElse, hendedElse⟩ := (ihElse (hs.lowers hthen)).plain
    have hcond := Body.leaves_condElse code
      (closedArm_yields hleavesThen (by simpa using hendedThen) (yields? arena s.frame id))
      (closedArm_yields hleavesElse (by simpa using hendedElse) (yields? arena s.frame id))
    cases hreturns : arena.returns id with
    | false =>
      -- Nothing is yielded, and the end of the conditional can be reached.
      have hyields : yields? arena s.frame id = none := by simp [yields?, hreturns]
      rw [hyields] at hcond ⊢
      refine ⟨false, none, hcond, by simp, ?_⟩
      intro hnft
      have := Arena.returns_of_neverFallsThrough (by simpa using hnft : arena.neverFallsThrough id)
      simp [hreturns] at this
    | true =>
      have hyields : yields? arena s.frame id = some f.result.valType := by
        simp [yields?, hreturns, hs.result, Ty.valType?_of_nonvoid hresult]
      rw [hyields] at hcond ⊢
      cases tail with
      | true =>
        exact ⟨false, some f.result.valType, hcond, fun _ => ⟨rfl, .cond hstmt hreturns, rfl⟩,
          fun _ => .inr (by simp)⟩
      | false => exact hcond.close.flows_of_ended
  | @whileLoop id body cond tail s s' code inner hstmt hlt hcode hbody ih =>
    have henter : (s.enter LabelSupply.whileLoop).Fits f
        (s.labels.whileLoop.1.again :: s.labels.whileLoop.1.exit :: labels) :=
      hs.enter _ (fun l hl => by simp [hl]) (List.mem_cons_of_mem _ List.mem_cons_self)
        List.mem_cons_self List.mem_cons_self
    obtain ⟨ended, hleaves, -⟩ := (ih henter).plain
    have hloop := loopBody_leaves code hleaves Body.leaves_done
    exact hloop.flows hstmt (by simp) (by simp) (by simp)
  | @forLoop id body init cond update tail s s₁ s₂ code start inner step hstmt hinitLt hlt hinit
      hcode hbody hstep ihInit ihBody =>
    have henter : (s₁.enter LabelSupply.forLoop).Fits f
        (s₁.labels.forLoop.1.next :: s₁.labels.forLoop.1.again :: s₁.labels.forLoop.1.exit ::
          labels) :=
      (hs.lowers hinit).enter _ (fun l hl => by simp [hl]) (by simp) (by simp) (by simp)
    obtain ⟨endedInit, hleavesInit, -⟩ := (ihInit hs).plain
    obtain ⟨ended, hleaves, -⟩ := (ihBody henter).plain
    have hloop := loopBody_leaves code (Body.leaves_block hleaves.yields_none)
      (updateBody_leaves hstep)
    exact (hleavesInit.append hloop).flows hstmt (by simp) (by simp) (by simp)
  | retNothing _ | ret _ _ =>
    have hleaves : ∀ code, Body.Leaves labels (.ret code .done) true none := fun _ _ => rfl
    exact (hleaves _).flows_of_ended
  | breakLoop _ hl =>
    exact (Body.leaves_branch (hs.loops _ (List.mem_of_head? hl)).1).flows_of_ended
  | continueLoop _ hl =>
    exact (Body.leaves_branch (hs.loops _ (List.mem_of_head? hl)).2.2).flows_of_ended

end Statements

/-- The body of a function with a result is accepted as one that yields it: no path comes to the end
of an arm that has to yield, or to the end of the body, without the value. And no statement leaves a
value on the stack, except one with which the function ends and whose own end is a conditional that
returns; what that one leaves is the result. -/
theorem returning_body_validates {info : ModuleInfo} {arena : Arena} {body : StmtId}
    {s s' : LowerState} {code : Body} (hresult : s.frame.result.isVoid = false)
    (h : lowerBody info arena body s = .ok code s') :
    code.Yields s.frame.openLabels (some s.frame.result.valType) ∧
      ∀ id tail t t' inner, t.frame.result = s.frame.result →
        lowerStmt info arena id tail t = .ok inner t' →
        ∃ ended value, inner.Leaves t.frame.openLabels ended value ∧
          (value ≠ none → tail = true ∧ arena.EndsInReturningCond [id] ∧
            value = some s.frame.result.valType) := by
  constructor
  · obtain ⟨inner, hinner, rfl⟩ := lowerBody_ok h
    obtain ⟨ended, value, hleaves, hvalue, hended⟩ :=
      hinner.flows (f := s.frame.hideLocals) hresult (LowerState.fits_openLabels _)
    have hafter : s'.frame.result.isVoid = false := by
      rw [hinner.result_eq]
      exact hresult
    rw [hafter]
    cases hnft : arena.neverFallsThrough body with
    | false => exact hleaves.close.yields_of_ended _
    | true =>
      show inner.Yields _ _
      by_cases hne : value = none
      · subst hne
        rw [(hended (by simpa using hnft)).resolve_right (by simp)] at hleaves
        exact hleaves.yields_of_ended _
      · rw [(hvalue hne).2.2] at hleaves
        exact hleaves.yields_value
  · intro id tail t t' inner hsame hstmt
    obtain ⟨ended, value, hleaves, hvalue, -⟩ :=
      (Lowers.of_ok hstmt).flows (f := t.frame) (by rw [hsame]; exact hresult) t.fits_openLabels
    refine ⟨ended, value, hleaves, ?_⟩
    rw [← hsame]
    exact hvalue

/-- `while (c) { if (d) { while (c) { break; } } else { return 1; } }` and then, in a block,
`if (d) { return 1; } else { return 2; }`. -/
def guardedReturns : Arena where
  exprs := #[.ident "c", .ident "d", .int 1, .int 2]
  stmts := #[.breakLoop, .whileLoop 0 0, .ret (some 2), .cond 1 1 (some 2), .whileLoop 0 3,
    .ret (some 3), .cond 1 2 (some 5), .block [6], .block [4, 7]]

/-- The last conditional leaves the result; the one in the loop leaves nothing, though the loop in
its first arm may be left by a jump. -/
theorem guardedReturns_validates :
    ∃ code s', lowerBody (.empty "m" 16) guardedReturns 8 ⟨flags, {}⟩ = .ok code s' ∧
      flags.result.isVoid = false ∧ code.Yields [] (some .i32) ∧
      ∀ tail inner t', lowerStmt (.empty "m" 16) guardedReturns 4 tail ⟨flags, {}⟩ = .ok inner t' →
        ∃ ended, inner.Leaves [] ended none := by
  obtain ⟨code, s', h⟩ := LowerM.exists_ok
    (x := lowerBody (.empty "m" 16) guardedReturns 8) (s := ⟨flags, {}⟩) (by decide +kernel)
  obtain ⟨hbody, hstmts⟩ := returning_body_validates rfl h
  refine ⟨code, s', h, rfl, hbody, ?_⟩
  intro tail inner t' hstmt
  obtain ⟨ended, value, hleaves, hvalue⟩ := hstmts 4 tail _ t' inner rfl hstmt
  cases value with
  | none => exact ⟨ended, hleaves⟩
  | some t =>
    -- The statement is a loop, which is neither a conditional nor a block.
    rcases (hvalue (by simp)).2.1 with hs | hs <;> cases hs

end WasmBackend
