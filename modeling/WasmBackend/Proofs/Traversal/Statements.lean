import WasmBackend.Lower.Module
import WasmBackend.Proofs.Traversal.Expressions

/-!
# Statements are traversed inside their arena

The two questions about control, for a well-referenced arena and any larger one: they have no way to
fail, so for them the guard of the recursion may answer whatever it likes
(`Arena.descend_returnsStep`, `Arena.descend_neverFallsThroughStep`). Then the declaration of locals
and the lowering of statements and functions, for arenas that are alike as far as the statement
reaches (`ModuleInfo.Alike`) and in the sense of `EStateM.AgreesIn`. Along the way it is seen what a
step gives back, also where it fails: the loops of a frame, and the frames below it
(`Frame.skeleton`). Which code comes out is left to `Control.Lowered`.
-/

namespace WasmBackend

/-! ## Does control come out at the end? -/

namespace Arena

variable {a b : Arena} (ha : a.WellReferenced) (hab : a.Extends b)

include ha hab

theorem descend_returnsStep (answer : StmtId → StmtId → Bool) {id : StmtId}
    (hid : id < a.stmts.size) :
    descend answer (returnsStep b) id = a.returns id := by
  refine (descend_related (R := Eq) (fun id hid sub sub' hsub => ?_) hid).symm
  obtain ⟨s, hs⟩ := exists_stmt hid
  have hchild : ∀ child ∈ s.stmtChildren, sub child = sub' child :=
    fun child hchild => hsub child (ha.stmts id s hs child hchild)
  simp only [returnsStep, hs, hab.stmts id s hs]
  cases s with
  | block stmts => exact any_congr_mem hchild
  | cond condition thenBranch elseBranch =>
    cases elseBranch with
    | none => rfl
    | some elseBranch =>
      simp only [hchild thenBranch (by simp),
        hchild elseBranch (by simp)]
  | whileLoop condition body => exact hchild body (by simp)
  | forLoop init condition update body => exact hchild body (by simp)
  | function decl => exact hchild decl.body (by simp)
  | _ => rfl

theorem descend_neverFallsThroughStep (answer : StmtId → StmtId → Bool) {id : StmtId}
    (hid : id < a.stmts.size) :
    descend answer (neverFallsThroughStep b) id = a.neverFallsThrough id := by
  refine (descend_related (R := Eq) (fun id hid sub sub' hsub => ?_) hid).symm
  obtain ⟨s, hs⟩ := exists_stmt hid
  have hchild : ∀ child ∈ s.stmtChildren, sub child = sub' child :=
    fun child hchild => hsub child (ha.stmts id s hs child hchild)
  simp only [neverFallsThroughStep, hs, hab.stmts id s hs]
  cases s with
  | block stmts => exact any_congr_mem hchild
  | cond condition thenBranch elseBranch =>
    cases elseBranch with
    | none => rfl
    | some elseBranch =>
      simp only [hchild thenBranch (by simp),
        hchild elseBranch (by simp)]
  | _ => rfl

end Arena

/-! ## Steps with a state -/

namespace EStateM

variable {ε σ τ α β : Type}

/-- This part of the state is as it was. -/
def Restoring (part : σ → τ) (s s' : σ) : Prop := part s' = part s

instance (part : σ → τ) : Std.Refl (Restoring part) := ⟨fun _ => rfl⟩

instance (part : σ → τ) : IsTrans σ (Restoring part) := ⟨fun _ _ _ h h' => h'.trans h⟩

/-- What is true of the state stays true. -/
def Passing (P : σ → Prop) (s s' : σ) : Prop := P s → P s'

instance (P : σ → Prop) : Std.Refl (Passing P) := ⟨fun _ h => h⟩

instance (P : σ → Prop) : IsTrans σ (Passing P) := ⟨fun _ _ _ h h' hs => h' (h hs)⟩

/-- From every state the same outcome, and not for want of a node. -/
def Agrees (cause : ε → CompileError) (x y : EStateM ε σ α) : Prop :=
  ∀ s, x s = y s ∧ ∀ e s', x s = .error e s' → ∀ d, cause e ≠ .danglingNode d

/-- From every state the same outcome. Failures are of one kind, and where the step ends, with a
value or with an error, is related to where it began. -/
def AgreesIn (cause : ε → CompileError) (E : CompileError → Prop) (K : σ → σ → Prop)
    (x y : EStateM ε σ α) : Prop :=
  ∀ s, x s = y s ∧ (∀ e s', x s = .error e s' → E (cause e)) ∧ K s (endState x s)

namespace AgreesIn

variable {cause : ε → CompileError} {E : CompileError → Prop} {K : σ → σ → Prop}

theorem agrees {x y : EStateM ε σ α} (h : AgreesIn cause CompileError.NotDangling K x y) :
    Agrees cause x y := fun s => ⟨(h s).1, (h s).2.1⟩

/-- What follows a look at the state may use it differently. -/
theorem get {f g : σ → EStateM ε σ α} (h : ∀ s, AgreesIn cause E K (f s) (g s)) :
    AgreesIn cause E K (MonadState.get >>= f) (MonadState.get >>= g) :=
  fun s => h s s

variable [Std.Refl K]

theorem pure (a : α) : AgreesIn cause E K (Pure.pure a : EStateM ε σ α) (Pure.pure a) :=
  fun s => ⟨rfl, nofun, Std.Refl.refl s⟩

theorem throw {e : ε} (h : E (cause e)) :
    AgreesIn cause E K (MonadExcept.throw e : EStateM ε σ α) (MonadExcept.throw e) := by
  intro s
  refine ⟨rfl, ?_, Std.Refl.refl s⟩
  rintro e s' ⟨⟩
  exact h

variable [IsTrans σ K]

omit [Std.Refl K] in
theorem bind {x y : EStateM ε σ α} {f g : α → EStateM ε σ β} (hxy : AgreesIn cause E K x y)
    (hfg : ∀ a, AgreesIn cause E K (f a) (g a)) : AgreesIn cause E K (x >>= f) (y >>= g) := by
  intro s
  obtain ⟨heq, hfails, hends⟩ := hxy s
  unfold endState at hends ⊢
  cases hx : x s with
  | ok a s₁ =>
    obtain ⟨heq', hfails', hends'⟩ := hfg a s₁
    rw [hx] at hends
    rw [bind_of_ok hx, bind_of_ok (heq.symm.trans hx)]
    exact ⟨heq', hfails', IsTrans.trans _ _ _ hends hends'⟩
  | error e s₁ =>
    rw [hx] at hends hfails
    rw [bind_of_error hx, bind_of_error (heq.symm.trans hx)]
    refine ⟨rfl, ?_, hends⟩
    rintro e' s' ⟨⟩
    exact hfails e s₁ rfl

theorem forM {f g : α → EStateM ε σ Unit} {l : List α}
    (h : ∀ a ∈ l, AgreesIn cause E K (f a) (g a)) : AgreesIn cause E K (l.forM f) (l.forM g) := by
  induction l with
  | nil => exact .pure ()
  | cons a rest ih =>
    obtain ⟨ha, hrest⟩ := List.forall_mem_cons.mp h
    exact ha.bind fun _ => ih hrest

theorem mapM {f g : α → EStateM ε σ β} {l : List α} (h : ∀ a ∈ l, AgreesIn cause E K (f a) (g a)) :
    AgreesIn cause E K (l.mapM f) (l.mapM g) := by
  induction l with
  | nil => exact .pure []
  | cons a rest ih =>
    obtain ⟨ha, hrest⟩ := List.forall_mem_cons.mp h
    rw [List.mapM_cons, List.mapM_cons]
    exact ha.bind fun _ => (ih hrest).bind fun _ => .pure _

omit [IsTrans σ K] in
theorem optionForM {f g : α → EStateM ε σ Unit} {o : Option α}
    (h : ∀ a ∈ o, AgreesIn cause E K (f a) (g a)) : AgreesIn cause E K (o.forM f) (o.forM g) := by
  cases o with
  | none => exact .pure ()
  | some a => exact h a rfl

end AgreesIn

end EStateM

/-! ## Alike arenas -/

/-- Two arenas with the same nodes wherever these statements reach, however the frame is. A missing
statement is an error of this kind, or there is none. -/
structure ModuleInfo.Alike (info : ModuleInfo) (a b : Arena) (E : CompileError → Prop)
    (contains : StmtId → Prop) (reached : ExprId → Prop) : Prop where
  scope : ∀ frame, Scope.Alike ⟨info, a, frame⟩ b E reached
  same : ∀ id, contains id → b.stmt? id = a.stmt? id
  stmt : ∀ id s child, contains id → a.stmt? id = some s → child ∈ s.stmtChildren → contains child
  leaf : ∀ id s e, contains id → a.stmt? id = some s → e ∈ s.exprChildren → reached e
  whole : (∀ d, E (.danglingNode d)) ∨
    (∀ id s, a.stmt? id = some s → ∀ child ∈ s.stmtChildren, child < id) ∧
      ∀ id, contains id → id < a.stmts.size
  returns : ∀ id, contains id → b.returns id = a.returns id
  neverFallsThrough : ∀ id, contains id → b.neverFallsThrough id = a.neverFallsThrough id

/-- Everything in a well referenced arena is found in an arena that extends it, just the same. -/
theorem Arena.WellReferenced.infoAlike {info : ModuleInfo} {a b : Arena} (ha : a.WellReferenced)
    (hab : a.Extends b) :
    info.Alike a b CompileError.NotDangling (fun id => id < a.stmts.size)
      fun id => id < a.exprs.size where
  scope := fun _ => ha.scopeAlike hab
  same := by
    intro id hid
    obtain ⟨s, hs⟩ := exists_stmt hid
    rw [hs, hab.stmts id s hs]
  stmt := fun id s child hid hs hchild => Nat.lt_trans (ha.stmts id s hs child hchild) hid
  leaf := fun id s e _ hs he => ha.leaves id s hs e he
  whole := .inr ⟨ha.stmts, fun _ hid => hid⟩
  returns := fun _ hid => descend_returnsStep ha hab _ hid
  neverFallsThrough := fun _ hid => descend_neverFallsThroughStep ha hab _ hid

/-- Any arena is like itself, if every error counts. -/
theorem ModuleInfo.alike_self (info : ModuleInfo) (arena : Arena) :
    info.Alike arena arena (fun _ => True) (fun _ => True) fun _ => True where
  scope := fun _ => ⟨⟨fun _ _ => rfl, fun _ _ _ _ _ _ => trivial, .inl fun _ => trivial⟩,
    fun _ _ => trivial, fun _ _ _ _ _ => .inr fun _ => trivial⟩
  same := fun _ _ => rfl
  stmt := fun _ _ _ _ _ _ => trivial
  leaf := fun _ _ _ _ _ _ => trivial
  whole := .inl fun _ => trivial
  returns := fun _ _ => rfl
  neverFallsThrough := fun _ _ => rfl

theorem Arena.Alike.arrayElementType_eq {a b : Arena} {E : CompileError → Prop}
    {reached : ExprId → Prop} (h : a.Alike b E reached) (stated expected : Option Ty)
    {elements : List ExprId} (helements : ∀ e ∈ elements, reached e) :
    arrayElementType b stated expected elements = arrayElementType a stated expected elements := by
  unfold arrayElementType
  cases stated with
  | some t => rfl
  | none =>
    cases expected with
    | some t => rfl
    | none =>
      refine congrArg (fun c : Bool => if c = true then Ty.f32 else Ty.i32)
        (any_congr_mem fun e he => ?_)
      rw [h.ofExpr?_eq (helements e he)]

namespace ModuleInfo.Alike

variable {info : ModuleInfo} {a b : Arena} {E : CompileError → Prop} {contains : StmtId → Prop}
variable {reached : ExprId → Prop} (h : info.Alike a b E contains reached)
include h

theorem missing {id : StmtId} (hid : contains id) (hnone : a.stmt? id = none) :
    ∀ d, E (.danglingNode d) := by
  refine h.whole.resolve_right fun hwhole => ?_
  obtain ⟨s, hs⟩ := Arena.exists_stmt (hwhole.2 id hid)
  rw [hs] at hnone
  cases hnone

theorem below {id child : StmtId} {s : Stmt} (hs : a.stmt? id = some s)
    (hchild : child ∈ s.stmtChildren) : child < id ∨ ∀ d, E (.danglingNode d) :=
  h.whole.symm.imp_left fun hwhole => hwhole.1 id s hs child hchild

end ModuleInfo.Alike

/-! ## Locals -/

/-- As `EStateM.Agrees`. -/
abbrev FrameM.Agrees {α : Type} (x y : FrameM α) : Prop := EStateM.Agrees (fun e => e) x y

abbrev FrameM.AgreesIn {α : Type} (E : CompileError → Prop) (K : Frame → Frame → Prop)
    (x y : FrameM α) : Prop :=
  EStateM.AgreesIn (fun e => e) E K x y

section Frames

variable {E : CompileError → Prop} {K : Frame → Frame → Prop} [Std.Refl K] [IsTrans Frame K]

omit [IsTrans Frame K] in
theorem FrameM.ofCompiled_alike {α : Type} {x y : Compiled α} (h : x.AgreesIn E y) :
    AgreesIn E K (ofCompiled x) (ofCompiled y) := by
  obtain ⟨rfl, hx⟩ := h
  cases x with
  | ok a => exact .pure a
  | error e => exact .throw (hx e rfl)

namespace Lower

open FrameM (AgreesIn)

omit [IsTrans Frame K] in
/-- Declaring asks the frame only. A name that is declared again with its type stays as it is. -/
theorem declare_alike (hE : CompileError.Admits CompileError.ofCode E)
    (hadd : ∀ (f : Frame) name ty, f.params.contains name = false →
      K f { f with locals := f.locals.set name ⟨name, .localVar, ty⟩ })
    (name : String) (ty : Ty) : AgreesIn E K (declare name ty) (declare name ty) := by
  intro f
  have hrefused : ∀ e f', (.error (.duplicateDefinition .localVar name) f :
      EStateM.Result CompileError Frame Unit) = .error e f' → E e := by
    rintro _ _ ⟨⟩
    exact hE _ rfl
  refine ⟨rfl, ?_⟩
  unfold EStateM.endState declare
  cases hparam : f.params.contains name with
  | true => exact ⟨hrefused, Std.Refl.refl f⟩
  | false =>
    cases f.locals.get? name with
    | none => exact ⟨nofun, hadd f name ty hparam⟩
    | some v =>
      simp only [Bool.false_eq_true, ↓reduceIte]
      split
      · exact ⟨nofun, Std.Refl.refl f⟩
      · exact ⟨hrefused, Std.Refl.refl f⟩

theorem impliedType_alike {sc : Scope} {b : Arena} {reached : ExprId → Prop}
    (h : sc.Alike b E reached) (decl : LetDecl) (hinit : reached decl.init) :
    (impliedType sc decl).AgreesIn E (impliedType (sc.widen b) decl) := by
  refine (h.expr hinit).bind fun e he => ?_
  have hchild (child : ExprId) := h.child decl.init e child hinit (Scope.expr_eq_ok.mp he)
  cases e with
  | str _ => exact .ok _
  | array elements stated =>
    have helements : arrayElementType b stated none elements =
        arrayElementType sc.arena stated none elements := h.arrayElementType_eq stated none hchild
    simp only [Scope.widen, helements]
    exact .ok _
  | _ =>
    refine (Scope.laneOf_alike h hinit).bind fun lane _ => ?_
    cases lane with
    | void => exact .error (h.admits _ rfl)
    | _ => exact .ok _

variable {info : ModuleInfo} {a b : Arena} {contains : StmtId → Prop} {reached : ExprId → Prop}
variable (h : info.Alike a b E contains reached)
variable (hadd : ∀ (f : Frame) name ty, f.params.contains name = false →
  K f { f with locals := f.locals.set name ⟨name, .localVar, ty⟩ })
include h hadd

theorem declareLet_alike (decl : LetDecl) (hinit : reached decl.init) :
    AgreesIn E K (declareLet info a decl) (declareLet info b decl) := by
  have hE := (h.scope none).admits
  refine .get fun f => ?_
  refine (FrameM.ofCompiled_alike ((h.scope (some f)).expr hinit)).bind fun e => ?_
  split
  · refine (FrameM.ofCompiled_alike (info.structLayout_alike hE _)).bind fun layout => ?_
    refine (EStateM.AgreesIn.forM fun entry _ => declare_alike hE hadd _ _).bind fun _ => ?_
    exact declare_alike hE hadd _ _
  · refine (FrameM.ofCompiled_alike ?_).bind fun ty => declare_alike hE hadd _ ty
    cases decl.ty with
    | some ty => exact .ok _
    | none => exact impliedType_alike (h.scope (some f)) decl hinit

theorem declareLocals_alike {id : StmtId} (hid : contains id) :
    AgreesIn E K (declareLocals info a id) (declareLocals info b id) := by
  refine descend_both (C := ∀ d, E (.danglingNode d))
    (R := fun id x y => contains id → AgreesIn E K x y)
    (fun hdangling _ _ _ => .throw (hdangling _)) ?_ id hid
  -- The arenas agree on a statement that is contained, so both sides take the same case.
  intro id sub sub' hsub hid
  simp only [h.same id hid]
  cases hs : a.stmt? id with
  | none => exact .throw (h.missing hid hs _)
  | some s =>
    have hchild (child : StmtId) (hmem : child ∈ s.stmtChildren) :
        AgreesIn E K (sub child) (sub' child) :=
      hsub child (h.below hs hmem) (h.stmt id s child hid hs hmem)
    cases s with
    | block stmts => exact .forM hchild
    | letting decl =>
      exact declareLet_alike h hadd decl (h.leaf id _ _ hid hs (by simp))
    -- Conditions declare nothing: only the arms are gone into.
    | cond condition thenBranch elseBranch =>
      refine (hchild thenBranch (by simp)).bind fun _ => ?_
      exact .optionForM fun c hc => hchild c (by simp_all)
    | whileLoop condition body => exact hchild body (by simp)
    | forLoop init condition update body =>
      have hinit : AgreesIn E K (init.forM sub) (init.forM sub') :=
        .optionForM fun c hc => hchild c (by simp_all)
      exact hinit.bind fun _ => hchild body (by simp)
    | _ => exact .pure ()

end Lower

end Frames

/-! ## Statements -/

/-- A frame without its locals. -/
def Frame.skeleton (f : Frame) : Frame := { f with locals := {}, pending := [] }

theorem Frame.skeleton_revealAll (f : Frame) (names : List String) :
    (names.foldl Frame.reveal f).skeleton = f.skeleton := by
  induction names generalizing f with
  | nil => rfl
  | cons name rest ih => exact ih (f.reveal name)

namespace LowerM

/-- As `EStateM.Agrees`, by what interrupted the lowering. -/
abbrev Agrees {α : Type} (x y : LowerM α) : Prop := EStateM.Agrees Interrupted.error x y

/-- The step changes nothing of the frame but its locals. -/
abbrev AgreesIn {α : Type} (E : CompileError → Prop) (x y : LowerM α) : Prop :=
  EStateM.AgreesIn Interrupted.error E (EStateM.Restoring fun s => s.frame.skeleton) x y

variable {α : Type} {E : CompileError → Prop} {x y : LowerM α}

theorem ofCompiled_alike {x y : Compiled α} (h : x.AgreesIn E y) :
    AgreesIn E (ofCompiled x) (ofCompiled y) := by
  obtain ⟨rfl, hx⟩ := h
  cases x with
  | ok a => exact .pure a
  | error e => exact .throw (hx e rfl)

theorem afterWriting_alike (written : Unit → List Line) (h : AgreesIn E x y) :
    AgreesIn E (afterWriting written x) (afterWriting written y) := by
  intro s
  obtain ⟨heq, hfails, hends⟩ := h s
  unfold EStateM.endState at hends ⊢
  unfold afterWriting
  rw [← heq]
  cases hs : x s with
  | ok a s₁ =>
    rw [hs] at hends
    exact ⟨rfl, nofun, hends⟩
  | error e s₁ =>
    rw [hs] at hends
    refine ⟨rfl, ?_, hends⟩
    rintro e' s' ⟨⟩
    exact hfails e s₁ hs

/-- The loop that is entered is the one that is left, since the step in between leaves every loop
that it enters. -/
theorem insideLoop_alike (labels : LoopLabels) (h : AgreesIn E x y) :
    AgreesIn E (insideLoop labels x) (insideLoop labels y) := by
  intro s
  have hexit {f : Frame} (hf : f.skeleton = (s.frame.enterLoop labels).skeleton) :
      f.exitLoop.skeleton = s.frame.skeleton :=
    congrArg (fun g : Frame => { g with loops := g.loops.tail }) hf
  obtain ⟨heq, hfails, hends⟩ := h { s with frame := s.frame.enterLoop labels }
  unfold EStateM.endState at hends ⊢
  unfold insideLoop
  rw [← heq]
  cases hs : x { s with frame := s.frame.enterLoop labels } with
  | ok a s₁ =>
    rw [hs] at hends
    exact ⟨rfl, nofun, hexit hends⟩
  | error e s₁ =>
    rw [hs] at hends
    refine ⟨rfl, ?_, hexit hends⟩
    rintro e' s' ⟨⟩
    exact hfails e s₁ hs

theorem modifyFrame_alike {g : Frame → Frame} (h : ∀ f, (g f).skeleton = f.skeleton) :
    AgreesIn E (modifyFrame g) (modifyFrame g) :=
  fun s => ⟨rfl, nofun, h s.frame⟩

theorem freshLabels_alike (draw : LabelSupply → LoopLabels × LabelSupply) :
    AgreesIn E (freshLabels draw) (freshLabels draw) :=
  fun _ => ⟨rfl, nofun, rfl⟩

end LowerM

namespace Lower

open LowerM (AgreesIn)

section

variable {sc : Scope} {b : Arena} {E : CompileError → Prop} {reached : ExprId → Prop}
variable (h : sc.Alike b E reached)
include h

theorem initMembers_alike (name : String) {fields : List FieldInit}
    (hfields : ∀ field ∈ fields, reached field.value) (entries : List (String × MemberLayout)) :
    (initMembers sc name fields entries).AgreesIn E
      (initMembers (sc.widen b) name fields entries) := by
  have hmember (entry : String × MemberLayout) :
      (initMember sc name fields entry).AgreesIn E
        (initMember (sc.widen b) name fields entry) := by
    unfold initMember
    simp only
    cases entry.2.ty.storage? with
    | none => exact .error (h.admits _ rfl)
    | some s =>
      simp only
      cases hfind : fields.find? fun field => field.name == entry.1 with
      | some field =>
        exact (asLane_alike h (hfields field (List.mem_of_find?_eq_some hfind)) _).bind
          fun _ _ => .ok _
      | none => exact .ok _
  induction entries with
  | nil => exact .ok _
  | cons entry rest ih => exact (hmember entry).bind fun _ _ => ih.bind fun _ _ => .ok _

theorem letCode_alike (locals : Table String Variable) (decl : LetDecl)
    (hinit : reached decl.init) :
    (letCode sc locals decl).AgreesIn E (letCode (sc.widen b) locals decl) := by
  refine (h.expr hinit).bind fun e he => ?_
  have hchild (child : ExprId) := h.child decl.init e child hinit (Scope.expr_eq_ok.mp he)
  cases e with
  | struct name fields =>
    -- Whether the fields exist is a question about the layout, so both sides ask the same one.
    have hcheck (layout : StructLayout) :
        (checkFields layout fields).AgreesIn E (checkFields layout fields) := by
      unfold checkFields
      clear he hchild
      induction fields with
      | nil => exact .ok _
      | cons field rest ih =>
        have hmember := layout.member_alike field.name fun _ => h.admits _ rfl
        exact (hmember.map _).bind fun _ _ => ih
    refine (sc.info.structLayout_alike h.admits name).bind fun layout _ => ?_
    refine (hcheck layout).bind fun _ _ => ?_
    refine (lower_alike h hinit).bind fun address _ => ?_
    exact (initMembers_alike h decl.name
      (fun field hfield => hchild field.value (List.mem_map_of_mem hfield)) _).bind fun _ _ => .ok _
  | _ =>
    simp only
    cases locals.get? decl.name with
    | none => exact .error (h.admits _ rfl)
    | some v => exact (asLane_alike h hinit v.ty.lane).bind fun _ _ => .ok _

end

section

variable {info : ModuleInfo} {a b : Arena} {E : CompileError → Prop} {contains : StmtId → Prop}
variable {reached : ExprId → Prop}

/-- The scope of the current frame differs in its arena only. -/
theorem frameScope_alike {α : Type} {f g : Scope → LowerM α}
    (h : ∀ frame, AgreesIn E (f ⟨info, a, some frame⟩) (g ⟨info, b, some frame⟩)) :
    AgreesIn E (frameScope info a >>= f) (frameScope info b >>= g) :=
  fun s => h s.frame s

theorem innermostLoop_alike (hE : CompileError.Admits CompileError.ofCode E) (statement : String) :
    AgreesIn E (innermostLoop statement) (innermostLoop statement) := by
  refine .get fun s => ?_
  cases s.frame.innermostLoop? with
  | some labels => exact .pure _
  | none => exact .throw (hE _ rfl)

variable (h : info.Alike a b E contains reached)
include h

theorem lowerLet_alike (decl : LetDecl) (hinit : reached decl.init) :
    AgreesIn E (lowerLet info a decl) (lowerLet info b decl) := by
  refine frameScope_alike fun frame => ?_
  refine .get fun s => ?_
  refine (LowerM.ofCompiled_alike
    (letCode_alike (h.scope (some frame)) s.frame.locals decl hinit)).bind fun made => ?_
  exact (LowerM.modifyFrame_alike fun f => f.skeleton_revealAll made.2).bind fun _ => .pure _

theorem lowerReturn_alike {value : Option ExprId} (hvalue : ∀ e ∈ value, reached e) :
    AgreesIn E (lowerReturn info a value) (lowerReturn info b value) := by
  refine frameScope_alike fun frame => ?_
  cases value with
  | none => exact .pure _
  | some value =>
    have hvalue := hvalue value rfl
    refine .get fun s => ?_
    by_cases hvoid : s.frame.result.lane = .void
    · simp only [hvoid, ↓reduceIte]
      exact (LowerM.ofCompiled_alike
        (discard_alike (h.scope (some frame)) hvalue)).bind fun _ => .pure _
    · simp only [hvoid, ↓reduceIte]
      exact (LowerM.ofCompiled_alike
        (asLane_alike (h.scope (some frame)) hvalue _)).bind fun _ => .pure _

variable {sub sub' : StmtId → Bool → LowerM Body}

/-- Whether an arm has to be closed is known of both arenas beforehand. -/
theorem lowerArm_alike {arm : StmtId} (hcontains : contains arm)
    (harm : ∀ tail, AgreesIn E (sub arm tail) (sub' arm tail)) (yields : Bool) :
    AgreesIn E (lowerArm a sub arm yields) (lowerArm b sub' arm yields) := by
  unfold lowerArm
  rw [h.neverFallsThrough arm hcontains]
  refine (harm false).bind fun body => ?_
  split <;> exact .pure _

theorem lowerCond_alike {id : StmtId} (hid : contains id) {cond : ExprId} (hcond : reached cond)
    {thenBranch : StmtId} {elseBranch : Option StmtId}
    (hcontains : ∀ child ∈ thenBranch :: elseBranch.toList, contains child)
    (hchild : ∀ child ∈ thenBranch :: elseBranch.toList, ∀ tail,
      AgreesIn E (sub child tail) (sub' child tail)) (tail : Bool) :
    AgreesIn E (lowerCond info a sub id cond thenBranch elseBranch tail)
      (lowerCond info b sub' id cond thenBranch elseBranch tail) := by
  unfold lowerCond
  rw [h.returns id hid]
  refine .get fun s => ?_
  refine frameScope_alike fun frame => ?_
  refine (LowerM.ofCompiled_alike
    (condition_alike (h.scope (some frame)) hcond)).bind fun code => ?_
  refine (LowerM.afterWriting_alike _ (lowerArm_alike h (hcontains thenBranch (by simp))
    (hchild thenBranch (by simp)) _)).bind fun thenArm => ?_
  cases elseBranch with
  | none => exact .pure _
  | some elseBranch =>
    exact (LowerM.afterWriting_alike _ (lowerArm_alike h (hcontains elseBranch (by simp))
      (hchild elseBranch (by simp)) _)).bind fun _ => .pure _

/-- The body is lowered inside the loop, and the update outside of it again. -/
theorem lowerLoop_alike (labels : LoopLabels) {cond : ExprId} (hcond : reached cond)
    {body : StmtId} (hbody : ∀ tail, AgreesIn E (sub body tail) (sub' body tail)) (isFor : Bool)
    {update : Option ExprId} (hupdate : ∀ e ∈ update, reached e) :
    AgreesIn E (lowerLoop info a sub labels cond body isFor update)
      (lowerLoop info b sub' labels cond body isFor update) := by
  refine frameScope_alike fun frame => ?_
  refine (LowerM.ofCompiled_alike
    (condition_alike (h.scope (some frame)) hcond)).bind fun code => ?_
  refine (LowerM.afterWriting_alike _
    (LowerM.insideLoop_alike labels (hbody false))).bind fun inner => ?_
  refine frameScope_alike fun frame => ?_
  refine (LowerM.afterWriting_alike _ ?_).bind fun step => .pure _
  cases update with
  | none => exact .pure _
  | some update =>
    exact (LowerM.ofCompiled_alike
      (discard_alike (h.scope (some frame)) (hupdate update rfl))).bind fun _ => .pure _

omit h in
theorem lowerBlock_alike {stmts : List StmtId}
    (hchild : ∀ child ∈ stmts, ∀ tail, AgreesIn E (sub child tail) (sub' child tail))
    (tail : Bool) : AgreesIn E (lowerBlock sub tail stmts) (lowerBlock sub' tail stmts) := by
  induction stmts with
  | nil => exact .pure _
  | cons first rest ih =>
    obtain ⟨hfirst, hrest⟩ := List.forall_mem_cons.mp hchild
    cases rest with
    | nil => exact hfirst tail
    | cons second rest =>
      exact (hfirst false).bind fun body =>
        (LowerM.afterWriting_alike _ (ih hrest)).bind fun _ => .pure _

theorem lowerStmt_alike {id : StmtId} (hid : contains id) (tail : Bool) :
    AgreesIn E (lowerStmt info a id tail) (lowerStmt info b id tail) := by
  have hE := (h.scope none).admits
  refine descend_both (C := ∀ d, E (.danglingNode d))
    (R := fun id (x y : Bool → LowerM Body) => contains id → ∀ tail, AgreesIn E (x tail) (y tail))
    (fun hdangling _ _ _ _ => .throw (hdangling _)) ?_ id hid tail
  -- Which statements return or fall through was asked of the arenas before, and is in `h`.
  intro id sub sub' hsub hid tail
  simp only [lowerStmtStep, h.same id hid]
  cases hs : a.stmt? id with
  | none => exact .throw (h.missing hid hs _)
  | some s =>
    have hcontains (child : StmtId) := h.stmt id s child hid hs
    have hleaf (e : ExprId) := h.leaf id s e hid hs
    have hchild (child : StmtId) (hmem : child ∈ s.stmtChildren) (tail : Bool) :
        AgreesIn E (sub child tail) (sub' child tail) :=
      hsub child (h.below hs hmem) (hcontains child hmem) tail
    cases s with
    | block stmts => exact lowerBlock_alike hchild tail
    | letting decl => exact lowerLet_alike h decl (hleaf _ (by simp))
    | cond cond thenBranch elseBranch =>
      exact lowerCond_alike h hid (hleaf cond (by simp)) hcontains hchild tail
    | whileLoop cond body =>
      refine (LowerM.freshLabels_alike _).bind fun labels => ?_
      exact lowerLoop_alike h labels (hleaf cond (by simp))
        (hchild body (by simp)) false (by simp)
    | forLoop init cond update body =>
      -- The labels are drawn after the start, in whatever state that leaves.
      have hloop (start : Body) : AgreesIn E
          (LowerM.afterWriting (fun _ => start.lines) do
            let labels ← LowerM.freshLabels LabelSupply.forLoop
            return start ++ (← lowerLoop info a sub labels cond body true update))
          (LowerM.afterWriting (fun _ => start.lines) do
            let labels ← LowerM.freshLabels LabelSupply.forLoop
            return start ++ (← lowerLoop info b sub' labels cond body true update)) := by
        refine LowerM.afterWriting_alike _ ?_
        refine (LowerM.freshLabels_alike _).bind fun labels => ?_
        refine (lowerLoop_alike h labels (hleaf cond (by simp))
          (hchild body (by simp)) true ?_).bind fun _ => .pure _
        exact fun e he => hleaf e (by simp_all)
      cases init with
      | none => exact (EStateM.AgreesIn.pure Body.done).bind hloop
      | some init => exact (hchild init (by simp) false).bind hloop
    | ret value =>
      exact lowerReturn_alike h fun e he => hleaf e (by simp_all)
    | breakLoop => exact (innermostLoop_alike hE "break").bind fun _ => .pure _
    | continueLoop => exact (innermostLoop_alike hE "continue").bind fun _ => .pure _
    | expr e =>
      refine frameScope_alike fun frame => ?_
      exact (LowerM.ofCompiled_alike (discard_alike (h.scope (some frame))
        (hleaf e (by simp)))).bind fun _ => .pure _
    | _ => exact .throw (hE _ rfl)

theorem lowerBody_alike {body : StmtId} (hbody : contains body) :
    AgreesIn E (lowerBody info a body) (lowerBody info b body) := by
  unfold lowerBody
  rw [h.neverFallsThrough body hbody]
  refine (LowerM.modifyFrame_alike fun f => show f.hideLocals.skeleton = f.skeleton from rfl).bind
    fun _ => ?_
  refine (lowerStmt_alike h hbody true).bind fun code => ?_
  refine .get fun s => ?_
  split <;> exact .pure _

end

end Lower

/-! ## Functions -/

/-- As `EStateM.Agrees`. -/
abbrev EmitM.Agrees {α : Type} (x y : EmitM α) : Prop := EStateM.Agrees (fun e => e) x y

/-- The step leaves the stack of frames as it was. -/
abbrev EmitM.AgreesIn {α : Type} (E : CompileError → Prop) (x y : EmitM α) : Prop :=
  EStateM.AgreesIn (fun e => e) E (EStateM.Restoring EmitState.stack) x y

theorem EmitM.ofCompiled_alike {α : Type} {E : CompileError → Prop} {x y : Compiled α}
    (h : x.AgreesIn E y) : AgreesIn E (ofCompiled x) (ofCompiled y) := by
  obtain ⟨rfl, hx⟩ := h
  cases x with
  | ok a => exact .pure a
  | error e => exact .throw (hx e rfl)

namespace FrameStack

/-- A frame that is pushed can be taken off again, as it has become by then, and with it whatever
has been left above it. What is below does not matter. -/
theorem finish_push (stack : FrameStack) (frame : Frame) (g : Frame → Frame)
    (above : List Frame) :
    (⟨((stack.push frame).2.modify (stack.push frame).1 g).frames ++ above⟩ : FrameStack).finish
      (stack.push frame).1 = (some (g frame), stack) := by
  have hmodify : (stack.frames ++ [frame]).modify stack.frames.length g =
      stack.frames ++ [g frame] := by
    simp [List.modify_eq_take_drop]
  simp [push, modify, finish, get?, drop, depth, hmodify]

theorem drop_push (stack : FrameStack) (frame : Frame) :
    (stack.push frame).2.drop (stack.push frame).1 = stack := by
  simp [push, drop, depth]

end FrameStack

namespace Lower

variable {info : ModuleInfo} {a b : Arena} {E : CompileError → Prop} {contains : StmtId → Prop}
variable {reached : ExprId → Prop}

theorem functionFrame_alike (hE : CompileError.Admits CompileError.ofCode E) (name : String)
    (decl : FunctionDecl) : (functionFrame name decl).AgreesIn E (functionFrame name decl) := by
  refine .foldlM (fun frame param _ => ?_) _
  split
  · exact .ok _
  · exact .error (hE _ rfl)

/-- Whatever is done with the frame that is pushed, it is taken off again. -/
theorem withFrame_alike {α : Type} (frame : Frame) {x y : LowerM α} (h : LowerM.AgreesIn E x y) :
    EmitM.AgreesIn E (withFrame frame x) (withFrame frame y) := by
  intro s
  obtain ⟨heq, hfails, -⟩ := h ⟨frame, s.labels⟩
  unfold EStateM.endState withFrame
  simp only [← heq]
  cases hx : x ⟨frame, s.labels⟩ with
  | error e after =>
    refine ⟨trivial, ?_, s.stack.drop_push frame⟩
    rintro _ s' ⟨⟩
    exact hfails _ _ hx
  | ok a after =>
    have hfinish := s.stack.finish_push frame (fun _ => after.frame) []
    rw [List.append_nil] at hfinish
    dsimp only
    rw [hfinish]
    exact ⟨trivial, nofun, rfl⟩

variable (h : info.Alike a b E contains reached)
include h

theorem lowerInFrame_alike {body : StmtId} (hbody : contains body) :
    LowerM.AgreesIn E (lowerInFrame info a body) (lowerInFrame info b body) := by
  intro s
  obtain ⟨heq, hfails, hends⟩ := declareLocals_alike (K := EStateM.Restoring Frame.skeleton) h
    (fun _ _ _ _ => rfl) hbody s.frame
  unfold EStateM.endState at hends ⊢
  unfold lowerInFrame
  rw [← heq]
  cases hdeclared : declareLocals info a body s.frame with
  | ok _ frame =>
    rw [hdeclared] at hends
    obtain ⟨heq', hfails', hends'⟩ := lowerBody_alike h hbody { s with frame }
    exact ⟨heq', hfails', hends'.trans hends⟩
  | error e frame =>
    rw [hdeclared] at hends
    refine ⟨rfl, ?_, hends⟩
    rintro e' s' ⟨⟩
    exact hfails e frame hdeclared

theorem lowerFunction_alike (name : String) {entry : FunctionEntry} (hentry : contains entry.decl) :
    EmitM.AgreesIn E (lowerFunction info a name entry) (lowerFunction info b name entry) := by
  have hE := (h.scope none).admits
  unfold lowerFunction
  rw [h.same entry.decl hentry]
  split
  · next decl hdecl =>
    have hbody := h.stmt entry.decl _ decl.body hentry hdecl (by simp)
    refine (EmitM.ofCompiled_alike (functionFrame_alike hE name decl)).bind fun frame => ?_
    exact (withFrame_alike frame (lowerInFrame_alike h hbody)).bind fun _ => .pure _
  · exact .throw (hE _ rfl)

end Lower

end WasmBackend
