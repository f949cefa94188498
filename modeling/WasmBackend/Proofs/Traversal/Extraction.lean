import Mathlib.Data.List.Basic
import WasmBackend.Proofs.Data.Allocation
import WasmBackend.Proofs.Symbols.Clashes
import WasmBackend.Proofs.Traversal.Statements

/-!
# Validation makes every traversal safe

What is left after expressions and statements: extraction, whose walk places the literals. The last
section puts all traversals together.

A traversal that looked up an id outside the arena would notice what stands there in a larger one.
`Module.TraversedWithin` says of every traversal that it does not: in each arena that extends the
module's own it gives the same. In addition it never answers that a node is missing, so the guards
that make the recursions end on any arena whatever are never met on this one.
-/

namespace WasmBackend

open Compiled

/-! ## Extracting declarations -/

open Compiled (Agrees AgreesIn)

/-- The error is about what is declared, and not about its name. -/
def CompileError.ofContent : CompileError → Bool
  | unknownStruct _ => true
  | unknownMember _ _ => true
  | danglingNode _ => true
  | notImplemented _ => true
  | unsupportedLiteral _ => true
  | invalidAlignment _ => true
  | addressOverflow _ => true
  | _ => false

section

variable {a b : Arena} {E : CompileError → Prop} {reached : ExprId → Prop}
variable (h : a.Alike b E reached) (hE : CompileError.Admits CompileError.ofContent E)

include h hE

theorem globalShape_alike (decl : LetDecl) (hinit : reached decl.init) :
    AgreesIn E (globalShape a decl) (globalShape b decl) := by
  refine AgreesIn.map _ ?_
  simp only [h.same _ hinit]
  cases he : a.expr? decl.init with
  | none => exact .error (h.missing hinit he _)
  | some e =>
    have hchild (child : ExprId) := h.child decl.init e child hinit he
    cases e with
    | int _ | char _ | float _ | bool _ | str _ | struct _ _ => exact .ok _
    | array elements stated =>
      have helements (expected : Option Ty) : arrayElementType b stated expected elements =
          arrayElementType a stated expected elements :=
        h.arrayElementType_eq stated expected hchild
      simp only [helements]
      exact .ok _
    | unary op operand =>
      cases op with
      | neg =>
        -- A negated literal is the one initialiser that is looked into.
        have hoperand := hchild operand (by simp)
        simp only [h.same _ hoperand]
        cases ho : a.expr? operand with
        | none => exact .error (h.missing hoperand ho _)
        | some o =>
          cases o with
          | int _ | float _ => exact .ok _
          | _ => exact .error (hE _ rfl)
      | _ => exact .error (hE _ rfl)
    | _ => exact .error (hE _ rfl)

end

/-! ## Placing literals -/

/-- From every state the same outcome, and failures are of one kind. -/
def PlaceM.AgreesIn {α : Type} (E : CompileError → Prop) (x y : PlaceM α) : Prop :=
  ∀ p, Compiled.AgreesIn E (x p) (y p)

namespace PlaceM.AgreesIn

variable {α β : Type} {E : CompileError → Prop}

theorem pure (a : α) : PlaceM.AgreesIn E (Pure.pure a) (Pure.pure a) := fun _ => .ok _

theorem bind {x y : PlaceM α} {f g : α → PlaceM β} (hxy : PlaceM.AgreesIn E x y)
    (hfg : ∀ a, PlaceM.AgreesIn E (f a) (g a)) : PlaceM.AgreesIn E (x >>= f) (y >>= g) :=
  fun p => (hxy p).bind fun next _ => hfg next.1 next.2

/-- What follows a look at the state may use it differently. -/
theorem get {f g : Placement → PlaceM α} (h : ∀ p, PlaceM.AgreesIn E (f p) (g p)) :
    PlaceM.AgreesIn E (MonadState.get >>= f) (MonadState.get >>= g) :=
  fun p => h p p

theorem lift {x y : Compiled α} (h : x.AgreesIn E y) :
    PlaceM.AgreesIn E (liftM x : PlaceM α) (liftM y : PlaceM α) :=
  fun _ => h.bind fun _ _ => .ok _

theorem sequential : Sequential (PlaceM.AgreesIn E : PlaceM Unit → PlaceM Unit → Prop) where
  pure := .pure ()
  andThen := fun hx hy => hx.bind fun _ => hy

end PlaceM.AgreesIn

namespace Placement

theorem expect_alike {E : CompileError → Prop} (id : ExprId) (elementTy : Ty) :
    PlaceM.AgreesIn E (expect id elementTy) (expect id elementTy) := fun _ => .ok _

section

variable {E : CompileError → Prop} (hE : CompileError.Admits CompileError.ofContent E)

include hE

theorem place_alike (id : ExprId) (bytes : List UInt8) (align : Nat) :
    PlaceM.AgreesIn E (place id bytes align) (place id bytes align) := by
  intro p
  apply AgreesIn.bind
  · refine ⟨rfl, ?_⟩
    intro e h
    obtain ⟨_, herror⟩ := DataImage.compiled_error h
    rcases (DataImage.addBlock_error herror).2 with rfl | rfl <;> exact hE _ rfl
  · exact fun _ _ => .ok _

theorem placeString_alike (id : ExprId) (content : String) :
    PlaceM.AgreesIn E (placeString id content) (placeString id content) := by
  intro p
  apply AgreesIn.bind
  · refine ⟨rfl, ?_⟩
    intro e h
    obtain ⟨_, herror⟩ := DataImage.compiled_error h
    rcases DataImage.header_error herror with ⟨-, hintern⟩ | ⟨_, -, hblock⟩
    · rcases (DataImage.intern_error hintern).2 with rfl | rfl <;> exact hE _ rfl
    · rcases (DataImage.addBlock_error hblock).2 with rfl | rfl <;> exact hE _ rfl
  · exact fun _ _ => .ok _

end

section

variable {a b : Arena} {E : CompileError → Prop} {reached : ExprId → Prop}
variable (h : a.Alike b E reached) (hE : CompileError.Admits CompileError.ofContent E)

include h hE

theorem encodeElement_alike (literals : Table ExprId Nat) (elementTy : Ty) (s : Scalar)
    {id : ExprId} (hid : reached id) :
    AgreesIn E (encodeElement a literals elementTy s id)
      (encodeElement b literals elementTy s id) := by
  simp only [encodeElement, h.same id hid, h.ofExpr?_eq hid]
  cases he : a.expr? id with
  | none => exact .error (h.missing hid he _)
  | some e =>
    simp only
    split
    · split
      · exact .error (hE _ rfl)
      · split
        · exact .error (hE _ rfl)
        · exact .ok _
    · split
      · exact .ok _
      · exact .error (hE _ rfl)

theorem encodeArray_alike (literals : Table ExprId Nat) (elementTy : Ty) {elements : List ExprId}
    (helements : ∀ e ∈ elements, reached e) :
    AgreesIn E (encodeArray a literals elementTy elements)
      (encodeArray b literals elementTy elements) := by
  unfold encodeArray
  cases elementTy.storage? with
  | none => exact .error (hE _ rfl)
  | some s =>
    exact (AgreesIn.mapM fun e he =>
      encodeElement_alike h hE literals elementTy s (helements e he)).bind fun _ _ => .ok _

theorem encodeField_alike (layout : StructLayout) (name : String) (bytes : List UInt8)
    (field : FieldInit) (hvalue : reached field.value) :
    AgreesIn E (encodeField a layout name bytes field) (encodeField b layout name bytes field) := by
  have hconstant : fieldConstant? b field.value = fieldConstant? a field.value := by
    simp only [fieldConstant?, h.same _ hvalue, h.ofExpr?_eq hvalue]
  refine (layout.member_alike field.name fun _ => hE _ rfl).bind fun member _ => ?_
  simp only [h.same _ hvalue, hconstant]
  cases he : a.expr? field.value with
  | none => exact .error (h.missing hvalue he _)
  | some e =>
    simp only
    split
    · exact .error (hE _ rfl)
    · split
      · exact .error (hE _ rfl)
      · exact .ok _

theorem encodeStruct_alike (structs : Table String StructLayout) (name : String)
    {fields : List FieldInit} (hfields : ∀ field ∈ fields, reached field.value) :
    AgreesIn E (encodeStruct a structs name fields) (encodeStruct b structs name fields) := by
  unfold encodeStruct
  cases structs.get? name with
  | none => exact .error (hE _ rfl)
  | some layout =>
    exact .foldlM (fun bytes field hfield => encodeField_alike h hE layout name bytes field
      (hfields field hfield)) _

theorem placeArray_alike (id : ExprId) {elements : List ExprId} (stated : Option Ty)
    {walk walk' : PlaceM Unit} (helements : ∀ e ∈ elements, reached e)
    (hwalk : PlaceM.AgreesIn E walk walk') :
    PlaceM.AgreesIn E (placeArray a id elements stated walk)
      (placeArray b id elements stated walk') := by
  have hfilter : elements.filter (isArray b) = elements.filter (isArray a) :=
    List.filter_congr fun e he => by simp only [isArray, h.same e (helements e he)]
  refine .get fun p => ?_
  rw [h.arrayElementType_eq stated _ helements, hfilter]
  simp only
  rcases (arrayElementType a stated (p.expected.get? id) elements).element? with _ | inner
  on_goal 2 =>
    refine (PlaceM.AgreesIn.sequential.forM fun e _ => expect_alike e inner).bind fun _ => ?_
  all_goals
    refine hwalk.bind fun _ => ?_
    refine .get fun p => ?_
    refine (PlaceM.AgreesIn.lift (encodeArray_alike h hE p.literals _ helements)).bind
      fun encoded => ?_
    exact place_alike hE id encoded.1 encoded.2

/-- The walk that places literals does the same at an expression. -/
theorem visitor_expr_alike (structs : Table String StructLayout) {id : ExprId} {e : Expr}
    {walk walk' : PlaceM Unit} (hid : reached id) (he : a.expr? id = some e)
    (hwalk : PlaceM.AgreesIn E walk walk') :
    PlaceM.AgreesIn E ((visitor a structs).expr id e walk)
      ((visitor b structs).expr id e walk') := by
  have hchild (child : ExprId) := h.child id e child hid he
  cases e with
  | str content => exact placeString_alike hE id content
  | array elements stated => exact placeArray_alike h hE id stated hchild hwalk
  | struct name fields =>
    refine (PlaceM.AgreesIn.lift (encodeStruct_alike h hE structs name fun field hfield =>
      hchild field.value (List.mem_map_of_mem hfield))).bind fun bytes => ?_
    exact place_alike hE id bytes 4
  | _ => exact hwalk

end

theorem visitor_related {a b : Arena} (ha : a.WellReferenced) (hab : a.Extends b)
    (structs : Table String StructLayout) :
    Visitor.Related (PlaceM.AgreesIn CompileError.NotDangling) a (visitor a structs)
      (visitor b structs) where
  stmt := by
    intro id s walk walk' _ hwalk
    cases s with
    | letting decl =>
      unfold visitor
      simp only
      cases decl.ty.bind Ty.element? with
      | some elementTy => exact (expect_alike _ _).bind fun _ => hwalk
      | none => exact hwalk
    | _ => exact hwalk
  expr := fun _ _ _ _ he hwalk => visitor_expr_alike (ha.alike hab) CompileError.admits_notDangling
    structs (Arena.lt_of_expr he) he hwalk

end Placement

/-! ## Extracting a module -/

namespace Module

variable {m : Module} (hm : m.WellReferenced) {b : Arena} (hab : m.arena.Extends b)

theorem visitModule_related {M : Type → Type} [Monad M] {R : M Unit → M Unit → Prop}
    (hR : Sequential R) {v v' : Visitor M} (hv : Visitor.Related R m.arena v v')
    (hm : m.WellReferenced) (hab : m.arena.Extends b) :
    R (v.visitModule m) (v'.visitModule { m with arena := b }) :=
  hR.forM fun id hid => Visitor.visitStmt_related hR hv hm.arena hab (hm.items id hid)

include hm hab

theorem itemStmts_widen : { m with arena := b }.itemStmts = m.itemStmts := by
  unfold itemStmts
  refine List.filterMap_congr fun id hid => ?_
  obtain ⟨s, hs⟩ := Arena.exists_stmt (hm.items id hid)
  simp only [hs, hab.stmts id s hs]

omit hab in
theorem init_lt_of_letDecls {decl : LetDecl} (h : decl ∈ m.letDecls) :
    decl.init < m.arena.exprs.size := by
  obtain ⟨⟨id, s⟩, hitem, hdecl⟩ := List.mem_filterMap.mp h
  obtain ⟨id, -, hid⟩ := List.mem_filterMap.mp hitem
  obtain ⟨s, hs, ⟨⟩⟩ := Option.map_eq_some_iff.mp hid
  cases s with
  | letting decl =>
    cases hdecl
    exact hm.arena.leaves id _ hs _ (by simp)
  | _ => cases hdecl

/-- What is wrong with a declaration is never that a node is missing. -/
theorem Fault.notDangling {e : CompileError} (h : m.Fault e) : e.NotDangling := by
  cases h with
  | clash _ => exact CompileError.notDangling rfl
  | layout _ hlayout =>
    obtain ⟨_, -, rfl⟩ | ⟨_, rfl⟩ := StructLayout.ofFields_error hlayout <;>
      exact CompileError.notDangling rfl
  | shape hdecl hshape =>
    exact (globalShape_alike (hm.arena.alike hab) CompileError.admits_notDangling _
      (init_lt_of_letDecls hm hdecl)).2 _ hshape

theorem declarations_agrees (base : Nat) :
    AgreesIn CompileError.NotDangling (m.declarations base)
      ({ m with arena := b }.declarations base) := by
  refine ⟨?_, fun e h => (declarations_error h).notDangling hm hab⟩
  -- Globals are the only declarations whose collection looks at the arena.
  have hglobals (info : ModuleInfo) : m.letDecls.foldlM (ModuleInfo.addGlobal m.arena) info =
      m.letDecls.foldlM (ModuleInfo.addGlobal b) info := by
    refine (AgreesIn.foldlM (E := fun _ => True) (fun info decl hdecl => ⟨?_, fun _ _ => trivial⟩)
      info).1
    have hshape := (globalShape_alike (hm.arena.alike hab) CompileError.admits_notDangling _
      (init_lt_of_letDecls hm hdecl)).1
    rw [ModuleInfo.addGlobal_eq, ModuleInfo.addGlobal_eq, hshape]
  have hlets : { m with arena := b }.letDecls = m.letDecls := by
    rw [letDecls, itemStmts_widen hm hab, letDecls]
  simp only [declarations, structDecls, functionDecls, importDecls, itemStmts_widen hm hab, hlets,
    hglobals]

theorem extract_agrees (base : Nat) :
    Agrees (m.extract base) ({ m with arena := b }.extract base) := by
  refine agrees_iff.mpr ((declarations_agrees hm hab base).bind fun info _ => ?_)
  refine AgreesIn.bind ?_ fun _ _ => .ok _
  exact visitModule_related PlaceM.AgreesIn.sequential
    (Placement.visitor_related hm.arena hab info.structs) hm hab _

end Module

/-! ## All traversals -/

/-- Every traversal of the module, begun at an item or anywhere else in its arena, gives in the
arena `b` what it gives in the module's own, and never answers that a node is missing. A walk does
the same whatever the visitor would do about a dangling reference, and so do the two questions about
control, which have nothing to say about one. -/
structure Module.TraversedWithin (m : Module) (b : Arena) : Prop where
  walk : ∀ {M : Type → Type} [Monad M] (v : Visitor M) (dangling : DanglingNode → M Unit),
    { v with dangling }.visitModule { m with arena := b } = v.visitModule m
  extract : ∀ base, (m.extract base).Agrees ({ m with arena := b }.extract base)
  infer : ∀ info frame, ∀ id < m.arena.exprs.size,
    (Scope.infer ⟨info, m.arena, frame⟩ id).Agrees (Scope.infer ⟨info, b, frame⟩ id)
  laneOf : ∀ info frame, ∀ id < m.arena.exprs.size,
    (Scope.laneOf ⟨info, m.arena, frame⟩ id).Agrees (Scope.laneOf ⟨info, b, frame⟩ id)
  returns : ∀ answer, ∀ id < m.arena.stmts.size,
    descend answer (Arena.returnsStep b) id = m.arena.returns id
  neverFallsThrough : ∀ answer, ∀ id < m.arena.stmts.size,
    descend answer (Arena.neverFallsThroughStep b) id = m.arena.neverFallsThrough id
  declareLocals : ∀ info, ∀ id < m.arena.stmts.size,
    FrameM.Agrees (Lower.declareLocals info m.arena id) (Lower.declareLocals info b id)
  lower : ∀ info frame, ∀ id < m.arena.exprs.size,
    (Lower.lower ⟨info, m.arena, frame⟩ id).Agrees (Lower.lower ⟨info, b, frame⟩ id)
  asLane : ∀ info frame, ∀ id < m.arena.exprs.size, ∀ lane,
    (Lower.asLane ⟨info, m.arena, frame⟩ id lane).Agrees (Lower.asLane ⟨info, b, frame⟩ id lane)
  condition : ∀ info frame, ∀ id < m.arena.exprs.size,
    (Lower.condition ⟨info, m.arena, frame⟩ id).Agrees (Lower.condition ⟨info, b, frame⟩ id)
  assign : ∀ info frame, ∀ target < m.arena.exprs.size, ∀ value < m.arena.exprs.size, ∀ keep,
    (Lower.assign ⟨info, m.arena, frame⟩ target value keep).Agrees
      (Lower.assign ⟨info, b, frame⟩ target value keep)
  discard : ∀ info frame, ∀ id < m.arena.exprs.size,
    (Lower.discard ⟨info, m.arena, frame⟩ id).Agrees (Lower.discard ⟨info, b, frame⟩ id)
  lowerStmt : ∀ info, ∀ id < m.arena.stmts.size, ∀ tail,
    LowerM.Agrees (Lower.lowerStmt info m.arena id tail) (Lower.lowerStmt info b id tail)
  lowerBody : ∀ info, ∀ id < m.arena.stmts.size,
    LowerM.Agrees (Lower.lowerBody info m.arena id) (Lower.lowerBody info b id)
  lowerFunction : ∀ info name entry, entry.decl ∈ m.items →
    EmitM.Agrees (Lower.lowerFunction info m.arena name entry)
      (Lower.lowerFunction info b name entry)

theorem Module.WellReferenced.visitModule_eq {m : Module} (hm : m.WellReferenced) {b : Arena}
    (hab : m.arena.Extends b) {M : Type → Type} [Monad M] (v : Visitor M)
    (dangling : DanglingNode → M Unit) :
    { v with dangling }.visitModule { m with arena := b } = v.visitModule m := by
  have hsequential : Sequential (Eq : M Unit → M Unit → Prop) := by
    refine ⟨rfl, ?_⟩
    rintro x x' y y' rfl rfl
    rfl
  have hrelated : Visitor.Related Eq m.arena v { v with dangling } := by
    refine ⟨?_, ?_⟩
    · rintro id s walk walk' - rfl
      rfl
    · rintro id e walk walk' - rfl
      rfl
  exact (visitModule_related hsequential hrelated hm hab).symm

/-- Validation accepts exactly the modules in which every reference goes to an earlier node, and
makes every traversal safe. -/
theorem validated_module_traversedWithin (m : Module) :
    (m.validate = .ok () ↔ m.WellReferenced) ∧
      (m.validate = .ok () → ∀ b, m.arena.Extends b → m.TraversedWithin b) := by
  refine ⟨Module.validate_ok_iff, ?_⟩
  intro hvalid b hab
  have hm := Module.validate_ok_iff.mp hvalid
  have ha := hm.arena
  have hscope (info : ModuleInfo) (frame : Option Frame) :
      Scope.Alike ⟨info, m.arena, frame⟩ b _ _ := ha.scopeAlike hab
  have hinfo (info : ModuleInfo) : info.Alike m.arena b _ _ _ := ha.infoAlike hab
  -- Each traversal agrees with itself in the larger arena, by the theorem of its own module.
  exact {
    walk := hm.visitModule_eq hab
    extract := Module.extract_agrees hm hab
    infer := fun _ _ _ hid => agrees_iff.mpr (Scope.infer_alike (hscope _ _) hid)
    laneOf := fun _ _ _ hid => agrees_iff.mpr (Scope.laneOf_alike (hscope _ _) hid)
    returns := fun answer _ hid => Arena.descend_returnsStep ha hab answer hid
    neverFallsThrough := fun answer _ hid => Arena.descend_neverFallsThroughStep ha hab answer hid
    declareLocals := fun _ _ hid => (Lower.declareLocals_alike
      (K := EStateM.Restoring Frame.skeleton) (hinfo _) (fun _ _ _ _ => rfl) hid).agrees
    lower := fun _ _ _ hid => agrees_iff.mpr (Lower.lower_alike (hscope _ _) hid)
    asLane := fun _ _ _ hid lane => agrees_iff.mpr (Lower.asLane_alike (hscope _ _) hid lane)
    condition := fun _ _ _ hid => agrees_iff.mpr (Lower.condition_alike (hscope _ _) hid)
    assign := fun _ _ _ htarget _ hvalue keep =>
      agrees_iff.mpr (Lower.assign_alike (hscope _ _) htarget hvalue keep)
    discard := fun _ _ _ hid => agrees_iff.mpr (Lower.discard_alike (hscope _ _) hid)
    lowerStmt := fun _ _ hid tail => (Lower.lowerStmt_alike (hinfo _) hid tail).agrees
    lowerBody := fun _ _ hid => (Lower.lowerBody_alike (hinfo _) hid).agrees
    lowerFunction := fun _ name _ hitem =>
      (Lower.lowerFunction_alike (hinfo _) name (hm.items _ hitem)).agrees }

/-- A constant table, and a function that goes through it. -/
def tally : Module where
  name := "tally"
  items := [0, 7]
  arena := {
    exprs := #[.int 1, .int 2, .array [0, 1] none, .int 0, .ident "i", .binary .lt 4 1,
      .update .increment 4, .ident "table", .index 7 4, .ident "sum", .binary .add 9 8,
      .assign 9 10]
    stmts := #[
      .letting ⟨"table", none, 2, false⟩,
      .letting ⟨"i", none, 3, false⟩,
      .expr 11,
      .block [2],
      .forLoop (some 1) 5 (some 6) 3,
      .ret (some 9),
      .block [4, 5],
      .function ⟨"total", [⟨"sum", .i32⟩], .i32, 6, true⟩] }

/-- It is traversed within its arena, as a larger one shows. -/
theorem tally_traversedWithin :
    tally.validate = .ok () ∧ tally.arena.Extends (tally.arena.pushExpr (.str "beyond")) ∧
      tally.TraversedWithin (tally.arena.pushExpr (.str "beyond")) :=
  have hvalid : tally.validate = .ok () := by decide +kernel
  have hextends := Arena.Extends.pushExpr tally.arena (.str "beyond")
  ⟨hvalid, hextends, (validated_module_traversedWithin tally).2 hvalid _ hextends⟩

end WasmBackend
