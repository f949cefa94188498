import WasmBackend.Proofs.Lanes
import WasmBackend.Proofs.Traversal.References

/-!
# Expressions are traversed inside their arena

Inference and lowering of an expression look up nodes, names and the places of literals. Over two
arenas that are alike as far as the expression reaches (`Scope.Alike`) they have the same outcome,
and they fail in no other ways than the look-ups do (`Compiled.AgreesIn`).

There are two uses of this. The arenas may be a well-referenced one and a larger one
(`Arena.WellReferenced.alike`): then no node is ever missing, and the places where a missing node
would pass unnoticed are covered too, because a node that is there only in the larger arena would
have been noticed. Or the arenas may be the same: then it is said how lowering fails
(`Traversal.Failures`), and a dangling reference is a failure like any other.

The functions are gone through bottom up, each with the code of its operands as a parameter.
-/

namespace WasmBackend

abbrev CompileError.NotDangling (e : CompileError) : Prop := ∀ d, e ≠ .danglingNode d

namespace Compiled

variable {α β : Type} {E : CompileError → Prop}

/-- The same outcome, and not for want of a node. -/
def Agrees (x y : Compiled α) : Prop := x = y ∧ ∀ d, x ≠ .error (.danglingNode d)

/-- The same outcome, and failures are of one kind. -/
def AgreesIn (E : CompileError → Prop) (x y : Compiled α) : Prop := x = y ∧ x.FailsIn E

theorem agrees_iff {x y : Compiled α} : Agrees x y ↔ AgreesIn CompileError.NotDangling x y := by
  refine and_congr_right fun _ => ⟨?_, fun h d hx => h _ hx d rfl⟩
  rintro h e hx d rfl
  exact h d hx

namespace AgreesIn

theorem ok (a : α) : AgreesIn E (.ok a) (.ok a) := ⟨rfl, .ok a⟩

theorem error {e : CompileError} (h : E e) : AgreesIn E (.error e : Compiled α) (.error e) :=
  ⟨rfl, .error h⟩

theorem bind {x y : Compiled α} {f g : α → Compiled β} (hxy : AgreesIn E x y)
    (hfg : ∀ a, x = .ok a → AgreesIn E (f a) (g a)) : AgreesIn E (x >>= f) (y >>= g) := by
  obtain ⟨rfl, hx⟩ := hxy
  cases x with
  | ok a => exact hfg a rfl
  | error e => exact .error (hx e rfl)

theorem map {x y : Compiled α} (f : α → β) (hxy : AgreesIn E x y) :
    AgreesIn E (Except.map f x) (Except.map f y) :=
  ⟨congrArg _ hxy.1, hxy.2.map f⟩

theorem mapM {f g : α → Compiled β} {l : List α} (h : ∀ a ∈ l, AgreesIn E (f a) (g a)) :
    AgreesIn E (l.mapM f) (l.mapM g) := by
  induction l with
  | nil => exact .ok _
  | cons a rest ih =>
    obtain ⟨ha, hrest⟩ := List.forall_mem_cons.mp h
    rw [List.mapM_cons, List.mapM_cons]
    exact ha.bind fun _ _ => (ih hrest).bind fun _ _ => .ok _

theorem foldlM {f g : β → α → Compiled β} {l : List α}
    (h : ∀ b, ∀ a ∈ l, AgreesIn E (f b a) (g b a)) (b : β) :
    AgreesIn E (l.foldlM f b) (l.foldlM g b) := by
  induction l generalizing b with
  | nil => exact .ok _
  | cons a rest ih =>
    rw [List.foldlM_cons, List.foldlM_cons]
    exact (h b a List.mem_cons_self).bind fun next _ =>
      ih (fun b a ha => h b a (List.mem_cons_of_mem _ ha)) next

end AgreesIn

end Compiled

open Compiled (Agrees AgreesIn)

/-! ## What does not look at the arena -/

/-- The error can come up when all imports are resolved and all literals are placed. -/
def CompileError.ofCode : CompileError → Bool
  | duplicateDefinition .moduleName _ => false
  | missingModule _ => false
  | unknownStdlibExport _ _ => false
  | unknownExport _ _ => false
  | link _ _ _ => false
  | unsupportedLiteral _ => false
  | invalidAlignment _ => false
  | addressOverflow _ => false
  | _ => true

def CompileError.isDangling : CompileError → Bool
  | danglingNode _ => true
  | _ => false

/-- All these errors are of one kind, apart from missing nodes. -/
def CompileError.Admits (some : CompileError → Bool) (E : CompileError → Prop) : Prop :=
  ∀ e, (some e && !e.isDangling) = true → E e

theorem CompileError.notDangling {e : CompileError} (h : e.isDangling = false) : e.NotDangling := by
  rintro d rfl
  cases h

theorem CompileError.admits_notDangling {some : CompileError → Bool} : Admits some NotDangling :=
  fun _ he => notDangling (Bool.not_inj (Bool.and_eq_true_iff.mp he).2)

theorem CompileError.admits_self {some : CompileError → Bool} :
    Admits some fun e => some e = true :=
  fun _ he => (Bool.and_eq_true_iff.mp he).1

/-- A layout is not part of an arena, so looking something up in it is all the same. -/
theorem StructLayout.member_alike {E : CompileError → Prop} (layout : StructLayout) (name : String)
    (hE : ∀ s, E (.unknownMember s name)) :
    AgreesIn E (layout.member name) (layout.member name) := by
  unfold member
  split
  · exact .ok _
  · exact .error (hE _)

section Names

variable {E : CompileError → Prop} (hE : CompileError.Admits CompileError.ofCode E)
include hE

theorem ImportEntry.resolved_alike (i : ImportEntry) : AgreesIn E i.resolved i.resolved := by
  unfold resolved
  cases i.descriptor with
  | some d => exact .ok d
  | none => exact .error (hE _ rfl)

theorem ModuleInfo.structLayout_alike (info : ModuleInfo) (name : String) :
    AgreesIn E (info.structLayout name) (info.structLayout name) := by
  unfold structLayout
  split
  · exact .ok _
  · split
    · exact .ok _
    · exact .error (hE _ rfl)

theorem Signature.decodeResult_alike (encoded : String) :
    AgreesIn E (decodeResult encoded) (decodeResult encoded) := by
  refine AgreesIn.map _ ?_
  unfold decode
  simp only
  split
  · exact .ok _
  · exact .error (hE _ rfl)

theorem Instr.set_alike (v : Variable) : AgreesIn E (Instr.set v) (Instr.set v) := by
  unfold Instr.set
  split
  · exact .ok _
  · exact .ok _
  · exact .ok _
  · exact .error (hE _ rfl)

variable (sc : Scope)

theorem Scope.lookup_alike (name : String) : AgreesIn E (sc.lookup name) (sc.lookup name) := by
  unfold lookup
  split
  · exact .ok _
  unfold lookupGlobal
  split
  · split
    · exact .ok _
    · exact .ok _
  split
  · exact .error (hE _ rfl)
  refine (ImportEntry.resolved_alike hE _).bind fun d _ => ?_
  cases d with
  | global ty memoryBacked => exact .ok _
  | _ => exact .error (hE _ rfl)

theorem Scope.callLane_alike (callee : String) :
    AgreesIn E (sc.callLane callee) (sc.callLane callee) := by
  unfold callLane
  split
  · exact .ok _
  split
  · exact .error (hE _ rfl)
  refine (ImportEntry.resolved_alike hE _).bind fun d _ => ?_
  cases d with
  | function s => exact Signature.decodeResult_alike hE _
  | _ => exact .error (hE _ rfl)

theorem Lower.signatureOf_alike (callee : String) :
    AgreesIn E (signatureOf sc callee) (signatureOf sc callee) := by
  unfold signatureOf
  split
  · exact .ok _
  split
  · exact .error (hE _ rfl)
  refine (ImportEntry.resolved_alike hE _).bind fun d _ => ?_
  cases d with
  | function s => exact .ok _
  | _ => exact .error (hE _ rfl)

theorem Scope.elementType_alike (base : Expr) :
    AgreesIn E (sc.elementType base) (sc.elementType base) := by
  cases base with
  | ident name => exact (sc.lookup_alike hE name).bind fun _ _ => .ok _
  | _ => exact .ok _

end Names

/-! ## Alike arenas -/

/-- The same scope over another arena. -/
def Scope.widen (sc : Scope) (b : Arena) : Scope := { sc with arena := b }

/-- The second arena has the same nodes wherever these expressions reach. A missing node is an error
of this kind, or there is none. -/
structure Arena.Alike (a b : Arena) (E : CompileError → Prop) (reached : ExprId → Prop) : Prop where
  same : ∀ id, reached id → b.expr? id = a.expr? id
  child : ∀ id e child, reached id → a.expr? id = some e → child ∈ e.children → reached child
  whole : (∀ d, E (.danglingNode d)) ∨ a.Descending ∧ ∀ id, reached id → id < a.exprs.size

/-- In addition, a missing place of a literal is an error of this kind, or there is none. -/
structure Scope.Alike (sc : Scope) (b : Arena) (E : CompileError → Prop)
    (reached : ExprId → Prop) : Prop extends sc.arena.Alike b E reached where
  admits : CompileError.Admits CompileError.ofCode E
  literal : ∀ id e, reached id → sc.arena.expr? id = some e → e.isDataLiteral = true →
    (sc.info.literals.get? id).isSome ∨ ∀ reason, E (.unsupportedLiteral reason)

namespace Arena

variable {a b : Arena} {E : CompileError → Prop} {reached : ExprId → Prop}

/-- A well-referenced arena is like every larger one, and no node is missing. -/
theorem WellReferenced.alike (ha : a.WellReferenced) (hab : a.Extends b) :
    a.Alike b E fun id => id < a.exprs.size where
  same := by
    intro id hid
    obtain ⟨e, he⟩ := exists_expr hid
    rw [he, hab.exprs id e he]
  child := fun id e child hid he hchild => Nat.lt_trans (ha.exprs id e he child hchild) hid
  whole := .inr ⟨ha.exprs, fun _ hid => hid⟩

theorem WellReferenced.scopeAlike {sc : Scope} (ha : sc.arena.WellReferenced)
    (hab : sc.arena.Extends b) :
    sc.Alike b CompileError.NotDangling fun id => id < sc.arena.exprs.size where
  toAlike := ha.alike hab
  admits := CompileError.admits_notDangling
  literal := fun _ _ _ _ _ => .inr fun _ => CompileError.notDangling rfl

namespace Alike

variable (h : a.Alike b E reached) {id child : ExprId} {e : Expr}
include h

theorem missing (hid : reached id) (hnone : a.expr? id = none) : ∀ d, E (.danglingNode d) := by
  refine h.whole.resolve_right fun hwhole => ?_
  obtain ⟨e, he⟩ := exists_expr (hwhole.2 id hid)
  rw [he] at hnone
  cases hnone

/-- Recursion goes down, or a guard that does not let it is met. -/
theorem below (he : a.expr? id = some e) (hchild : child ∈ e.children) :
    child < id ∨ ∀ d, E (.danglingNode d) :=
  h.whole.symm.imp_left fun hwhole => hwhole.1 id e he child hchild

theorem ofExpr?_eq (hid : reached id) : Constant.ofExpr? b id = Constant.ofExpr? a id := by
  simp only [Constant.ofExpr?, h.same id hid]
  cases he : a.expr? id with
  | none => rfl
  | some e =>
    cases e with
    | unary op operand =>
      have hoperand := h.child id _ operand hid he (by simp)
      cases op with
      | neg => simp only [h.same operand hoperand]
      | _ => rfl
    | _ => rfl

end Alike

end Arena

section

variable {sc : Scope} {b : Arena} {E : CompileError → Prop} {reached : ExprId → Prop}
variable (h : sc.Alike b E reached)

theorem Scope.Alike.expr (h : sc.Alike b E reached) {id : ExprId} (hid : reached id) :
    AgreesIn E (sc.expr id) ((sc.widen b).expr id) := by
  have hsame : (sc.widen b).expr id = sc.expr id := by
    simp only [Scope.expr, widen, h.same id hid]
  rw [hsame]
  unfold Scope.expr
  split
  · exact .ok _
  · next hnone => exact .error (h.missing hid hnone _)

/-- An expression that is reached, with an answer that is the same over both arenas. -/
structure Operand {α : Type} (E : CompileError → Prop) (reached : ExprId → Prop)
    (sub sub' : ExprId → Compiled α) (id : ExprId) : Prop where
  reached : reached id
  agrees : AgreesIn E (sub id) (sub' id)

/-- Recursions agree if their steps do, given that the answers about children and what these are
made of agree. -/
theorem Scope.Alike.descend {α : Type} {k k' : ExprId → (ExprId → Compiled α) → Expr → Compiled α}
    (h : sc.Alike b E reached)
    (hstep : ∀ id sub sub' e, reached id → sc.arena.expr? id = some e →
      (∀ child ∈ e.children, Operand E reached sub sub' child ∧
        ∀ t, sc.arena.expr? child = some t → ∀ inner ∈ t.children,
          Operand E reached sub sub' inner) →
      AgreesIn E (k id sub e) (k' id sub' e)) {id : ExprId} (hid : reached id) :
    let guard := fun parent child => .error (.danglingExpr parent child)
    AgreesIn E (WasmBackend.descend guard (fun id sub => sc.expr id >>= k id sub) id)
      (WasmBackend.descend guard (fun id sub => (sc.widen b).expr id >>= k' id sub) id) := by
  refine descend_both (C := ∀ d, E (.danglingNode d))
    (R := fun id x y => reached id → AgreesIn E x y)
    (fun hdangling _ _ _ => .error (hdangling _)) ?_ id hid
  intro id sub sub' hsub hid
  refine (h.expr hid).bind fun e he => ?_
  have he := Scope.expr_eq_ok.mp he
  refine hstep id sub sub' e hid he fun child hchild => ?_
  have hbelow := h.below he hchild
  have hreached := h.child id e child hid he hchild
  refine ⟨⟨hreached, hsub child hbelow hreached⟩, fun t ht inner hinner => ?_⟩
  -- A rule may look into an operand, and go on with what it finds there.
  have hdeep := h.child child t inner hreached ht hinner
  refine ⟨hdeep, hsub inner ?_ hdeep⟩
  exact hbelow.elim (fun hlt => (h.below ht hinner).imp_left (Nat.lt_trans · hlt)) .inr

/-! ## Lanes -/

namespace Scope

include h

theorem elementScalar_alike {base : ExprId} (hbase : reached base) :
    AgreesIn E (sc.elementScalar base) ((sc.widen b).elementScalar base) :=
  (h.expr hbase).bind fun e _ => (sc.elementType_alike h.admits e).bind fun _ _ => .ok _

theorem memberOf_alike {base : ExprId} (hbase : reached base) (name : String) :
    AgreesIn E (sc.memberOf base name) ((sc.widen b).memberOf base name) := by
  refine (h.expr hbase).bind fun e _ => ?_
  cases e with
  | ident x =>
    refine (sc.lookup_alike h.admits x).bind fun v _ => ?_
    cases v.ty.structName? with
    | none => exact .error (h.admits _ rfl)
    | some structName =>
      exact (sc.info.structLayout_alike h.admits structName).bind fun layout _ =>
        (layout.member_alike name fun _ => h.admits _ rfl).bind fun _ _ => .ok _
  | _ => exact .error (h.admits _ rfl)

theorem flattenedMember?_eq {base : ExprId} (hbase : reached base) (name : String) :
    (sc.widen b).flattenedMember? base name = sc.flattenedMember? base name := by
  simp only [flattenedMember?, widen, h.same base hbase]
  rfl

theorem infer_alike {id : ExprId} (hid : reached id) :
    AgreesIn E (sc.infer id) ((sc.widen b).infer id) := by
  refine h.descend (fun id sub sub' e _ _ hsub => ?_) hid
  have hchild (child : ExprId) (hmem : child ∈ e.children) := (hsub child hmem).1
  cases e with
  | ident name => exact (sc.lookup_alike h.admits name).bind fun _ _ => .ok _
  | index base position =>
    exact (h.expr (hchild base (by simp)).reached).bind fun e _ =>
      (sc.elementType_alike h.admits e).bind fun _ _ => .ok _
  | binary op left right =>
    dsimp only
    split
    · exact .ok _
    · exact (hchild left (by simp)).agrees.bind fun _ _ =>
        (hchild right (by simp)).agrees.bind fun _ _ => .ok _
  | call callee args => exact sc.callLane_alike h.admits callee
  | assign target value => exact (hchild value (by simp)).agrees
  | unary _ _ | update _ _ | member _ _ | pointerMember _ _ => exact .error (h.admits _ rfl)
  | _ => exact .ok _

theorem laneOf_alike {id : ExprId} (hid : reached id) :
    AgreesIn E (sc.laneOf id) ((sc.widen b).laneOf id) := by
  refine h.descend (fun id sub sub' e hid _ hsub => ?_) hid
  have hchild (child : ExprId) (hmem : child ∈ e.children) := (hsub child hmem).1
  cases e with
  | binary op left right =>
    dsimp only
    split
    · exact .ok _
    · exact (hchild left (by simp)).agrees.bind fun _ _ =>
        (hchild right (by simp)).agrees.bind fun _ _ => .ok _
  | assign target value => exact (hchild value (by simp)).agrees
  | unary op operand =>
    have hoperand := hchild operand (by simp)
    cases op with
    | neg => exact hoperand.agrees.bind fun _ _ => .ok _
    | not | bitNot => exact .ok _
    | deref => exact (elementScalar_alike h hoperand.reached).bind fun _ _ => .ok _
  -- The operand is not gone into: it is a variable, or this is refused.
  | update op operand =>
    refine (h.expr (hchild operand (by simp)).reached).bind fun e _ => ?_
    cases e with
    | ident name => exact (sc.lookup_alike h.admits name).bind fun _ _ => .ok _
    | _ => exact .error (h.admits _ rfl)
  | member base name =>
    have hbase := (hchild base (by simp)).reached
    simp only [flattenedMember?_eq h hbase]
    cases sc.flattenedMember? base name with
    | some v => exact .ok _
    | none => exact (memberOf_alike h hbase name).bind fun _ _ => .ok _
  | pointerMember base name =>
    exact (memberOf_alike h (hchild base (by simp)).reached name).bind
      fun _ _ => .ok _
  | _ => exact infer_alike h hid

end Scope

/-! ## Code, given the code of operands -/

namespace Lower

variable {sub sub' : ExprId → Compiled Code}

include h

theorem asLaneWith_alike {id : ExprId} (hid : Operand E reached sub sub' id) (lane : Lane) :
    AgreesIn E (asLaneWith sc sub id lane) (asLaneWith (sc.widen b) sub' id lane) := by
  unfold asLaneWith
  by_cases hvoid : lane = .void
  · simp only [hvoid, ↓reduceIte]
    exact hid.agrees
  have hconstant : (sc.widen b).constant? id = sc.constant? id := h.ofExpr?_eq hid.reached
  simp only [hvoid, ↓reduceIte, hconstant]
  cases sc.constant? id with
  | some c => exact .ok _
  | none =>
    refine (Scope.laneOf_alike h hid.reached).bind fun source _ => ?_
    refine hid.agrees.bind fun code _ => ?_
    cases Instr.convert? source lane <;> exact .ok _

theorem conditionWith_alike {id : ExprId} (hid : Operand E reached sub sub' id) :
    AgreesIn E (conditionWith sc sub id) (conditionWith (sc.widen b) sub' id) := by
  refine (Scope.laneOf_alike h hid.reached).bind fun lane _ => ?_
  refine hid.agrees.bind fun code _ => ?_
  split <;> exact .ok _

theorem truthWith_alike {id : ExprId} (hid : Operand E reached sub sub' id) :
    AgreesIn E (truthWith sc sub id) (truthWith (sc.widen b) sub' id) := by
  refine (Scope.laneOf_alike h hid.reached).bind fun lane _ => ?_
  refine (conditionWith_alike h hid).bind fun code _ => ?_
  split <;> exact .ok _

theorem binaryWith_alike {left right : ExprId} (op : BinaryOp)
    (hleft : Operand E reached sub sub' left) (hright : Operand E reached sub sub' right) :
    AgreesIn E (binaryWith sc sub op left right) (binaryWith (sc.widen b) sub' op left right) := by
  unfold binaryWith
  by_cases hlogical : op.isLogical = true
  · simp only [hlogical, ↓reduceIte]
    refine (truthWith_alike h hleft).bind fun first _ => ?_
    refine (truthWith_alike h hright).bind fun second _ => ?_
    split <;> exact .ok _
  simp only [hlogical]
  refine (Scope.laneOf_alike h hleft.reached).bind fun leftLane _ => ?_
  refine (Scope.laneOf_alike h hright.reached).bind fun rightLane _ => ?_
  split
  · exact .error (h.admits _ rfl)
  · exact (asLaneWith_alike h hleft _).bind fun first _ =>
      (asLaneWith_alike h hright _).bind fun second _ => .ok _

theorem negateWith_alike {id operand : ExprId} (hid : reached id)
    (hoperand : Operand E reached sub sub' operand) :
    AgreesIn E (negateWith sc sub id operand) (negateWith (sc.widen b) sub' id operand) := by
  have hconstant : (sc.widen b).constant? id = sc.constant? id := h.ofExpr?_eq hid
  unfold negateWith
  simp only [hconstant]
  cases sc.constant? id with
  | some c => cases c <;> exact .ok _
  | none =>
    refine (Scope.laneOf_alike h hoperand.reached).bind fun lane _ => ?_
    by_cases hfloat : lane.isFloat = true
    · simp only [hfloat, ↓reduceIte]
      exact hoperand.agrees.bind fun _ _ => .ok _
    · simp only [hfloat]
      exact (asLaneWith_alike h hoperand .int).bind fun _ _ => .ok _

theorem unaryWith_alike {id operand : ExprId} (hid : reached id) (op : PrefixOp)
    (hoperand : Operand E reached sub sub' operand) :
    AgreesIn E (unaryWith sc sub id op operand) (unaryWith (sc.widen b) sub' id op operand) := by
  cases op with
  | neg => exact negateWith_alike h hid hoperand
  | not => exact (conditionWith_alike h hoperand).bind fun _ _ => .ok _
  | bitNot => exact (asLaneWith_alike h hoperand .int).bind fun _ _ => .ok _
  | deref =>
    exact (Scope.elementScalar_alike h hoperand.reached).bind fun _ _ =>
      hoperand.agrees.bind fun _ _ => .ok _

/-- Arguments are lowered in order, and the first that fails ends it on both sides. -/
theorem argumentsWith_alike {args : List (ExprId × Lane)}
    (hargs : ∀ arg ∈ args, Operand E reached sub sub' arg.1) :
    AgreesIn E (argumentsWith sc sub args) (argumentsWith (sc.widen b) sub' args) := by
  induction args with
  | nil => exact .ok _
  | cons arg rest ih =>
    obtain ⟨harg, hrest⟩ := List.forall_mem_cons.mp hargs
    exact (asLaneWith_alike h harg arg.2).bind fun first _ =>
      (ih hrest).bind fun _ _ => .ok _

theorem callWith_alike (callee : String) {args : List ExprId}
    (hargs : ∀ arg ∈ args, Operand E reached sub sub' arg) :
    AgreesIn E (callWith sc sub callee args) (callWith (sc.widen b) sub' callee args) := by
  refine (signatureOf_alike h.admits sc callee).bind fun signature _ => ?_
  split
  · exact .error (h.admits _ rfl)
  · exact (argumentsWith_alike h fun arg harg => hargs arg.1 (List.of_mem_zip harg).1).bind
      fun _ _ => .ok _

theorem elementWith_alike {base position : ExprId} (hbase : Operand E reached sub sub' base)
    (hposition : Operand E reached sub sub' position) :
    AgreesIn E (elementWith sc sub base position)
      (elementWith (sc.widen b) sub' base position) := by
  refine (Scope.elementScalar_alike h hbase.reached).bind fun s _ => ?_
  refine hbase.agrees.bind fun code _ => ?_
  refine (h.expr hposition.reached).bind fun e _ => ?_
  split
  · exact .ok _
  · exact (asLaneWith_alike h hposition .int).bind fun _ _ => .ok _

theorem update_alike (op : PostfixOp) {operand : ExprId} (hoperand : reached operand)
    (keep : Bool) :
    AgreesIn E (update sc op operand keep) (update (sc.widen b) op operand keep) := by
  refine (h.expr hoperand).bind fun e _ => ?_
  cases e with
  | ident name =>
    exact (sc.lookup_alike h.admits name).bind fun v _ =>
      (Instr.set_alike h.admits v).bind fun _ _ => .ok _
  | _ => exact .error (h.admits _ rfl)

theorem memberPlace_alike {base : ExprId} (hbase : reached base) (name : String) :
    AgreesIn E (memberPlace sc base name) (memberPlace (sc.widen b) base name) := by
  refine (Scope.memberOf_alike h hbase name).bind fun found _ => ?_
  obtain ⟨v, layout⟩ := found
  simp only
  cases layout.ty.storage? with
  | none => exact .error (h.admits _ rfl)
  | some s => exact .ok _

theorem member_alike {base : ExprId} (hbase : reached base) (name : String)
    (allowFlattened : Bool) :
    AgreesIn E (member sc base name allowFlattened)
      (member (sc.widen b) base name allowFlattened) := by
  unfold member
  simp only [Scope.flattenedMember?_eq h hbase]
  split
  · exact .ok _
  · exact (memberPlace_alike h hbase name).bind fun _ _ => .ok _

theorem targetPlaceWith_alike {target : Expr}
    (htarget : ∀ child ∈ target.children, Operand E reached sub sub' child) :
    AgreesIn E (targetPlaceWith sc sub target) (targetPlaceWith (sc.widen b) sub' target) := by
  cases target with
  | index base position =>
    exact elementWith_alike h (htarget base (by simp))
      (htarget position (by simp))
  | member base name | pointerMember base name =>
    exact memberPlace_alike h (htarget base (by simp)).reached name
  | unary op operand =>
    have hoperand := htarget operand (by simp)
    cases op with
    | deref =>
      exact (Scope.elementScalar_alike h hoperand.reached).bind fun _ _ =>
        hoperand.agrees.bind fun _ _ => .ok _
    | _ => exact .error (h.admits _ rfl)
  | _ => exact .error (h.admits _ rfl)

theorem assignPlaceWith_alike {target : Expr} {value : ExprId}
    (htarget : ∀ child ∈ target.children, Operand E reached sub sub' child)
    (hvalue : Operand E reached sub sub' value) (keep : Bool) :
    AgreesIn E (assignPlaceWith sc sub target value keep)
      (assignPlaceWith (sc.widen b) sub' target value keep) := by
  unfold assignPlaceWith
  cases keep with
  | true => exact .error (h.admits _ rfl)
  | false =>
    exact (targetPlaceWith_alike h htarget).bind fun place _ =>
      (asLaneWith_alike h hvalue _).bind fun _ _ => .ok _

theorem assignVariableWith_alike (v : Variable) {value : ExprId}
    (hvalue : Operand E reached sub sub' value) (keep : Bool) :
    AgreesIn E (assignVariableWith sc sub v value keep)
      (assignVariableWith (sc.widen b) sub' v value keep) := by
  refine (Instr.set_alike h.admits v).bind fun set _ => ?_
  refine (asLaneWith_alike h hvalue _).bind fun code _ => ?_
  split
  · split <;> exact .ok _
  · exact .ok _

/-- The target is looked into but not lowered, so what it is made of has to be come to as well. -/
theorem assignWith_alike {target value : ExprId} (hreached : reached target)
    (htarget : ∀ e, sc.arena.expr? target = some e → ∀ child ∈ e.children,
      Operand E reached sub sub' child)
    (hvalue : Operand E reached sub sub' value) (keep : Bool) :
    AgreesIn E (assignWith sc sub target value keep)
      (assignWith (sc.widen b) sub' target value keep) := by
  refine (h.expr hreached).bind fun e he => ?_
  have hchild := htarget e (Scope.expr_eq_ok.mp he)
  cases e with
  | ident name =>
    exact (sc.lookup_alike h.admits name).bind fun v _ => assignVariableWith_alike h v hvalue keep
  | member base name =>
    have hbase := (hchild base (by simp)).reached
    simp only [Scope.flattenedMember?_eq h hbase]
    cases sc.flattenedMember? base name with
    | some v =>
      exact (memberPlace_alike h hbase name).bind fun _ _ =>
        (asLaneWith_alike h hvalue _).bind fun _ _ => .ok _
    | none => exact assignPlaceWith_alike h hchild hvalue keep
  | _ => exact assignPlaceWith_alike h hchild hvalue keep

/-! ## Code -/

theorem lower_alike {id : ExprId} (hid : reached id) :
    AgreesIn E (lower sc id) (lower (sc.widen b) id) := by
  refine h.descend (fun id sub sub' e hid he hsub => ?_) hid
  have hchild (child : ExprId) (hmem : child ∈ e.children) := (hsub child hmem).1
  cases e with
  | int _ | float _ | bool _ | char _ => exact .ok _
  | ident name => exact (sc.lookup_alike h.admits name).bind fun _ _ => .ok _
  | binary op left right =>
    exact binaryWith_alike h op (hchild left (by simp))
      (hchild right (by simp))
  | unary op operand => exact unaryWith_alike h hid op (hchild operand (by simp))
  | update op operand =>
    exact update_alike h op (hchild operand (by simp)).reached true
  | call callee args => exact (callWith_alike h callee hchild).bind fun _ _ => .ok _
  | index base position =>
    exact (elementWith_alike h (hchild base (by simp))
      (hchild position (by simp))).bind fun _ _ => .ok _
  | member base name =>
    exact member_alike h (hchild base (by simp)).reached name true
  | pointerMember base name =>
    exact member_alike h (hchild base (by simp)).reached name false
  | assign target value =>
    -- What the target is made of stands two levels down.
    obtain ⟨htarget, hinner⟩ := hsub target (by simp)
    exact assignWith_alike h htarget.reached hinner (hchild value (by simp)) true
  | str _ | array _ _ | struct _ _ =>
    simp only [Scope.widen]
    rcases h.literal id _ hid he rfl with hplaced | hmissing
    · obtain ⟨address, haddress⟩ := Option.isSome_iff_exists.mp hplaced
      simp only [haddress]
      exact .ok _
    · cases sc.info.literals.get? id with
      | some address => exact .ok _
      | none => exact .error (hmissing _)

theorem Operand.ofLower {id : ExprId} (hid : reached id) :
    Operand E reached (lower sc) (lower (sc.widen b)) id :=
  ⟨hid, lower_alike h hid⟩

theorem asLane_alike {id : ExprId} (hid : reached id) (lane : Lane) :
    AgreesIn E (asLane sc id lane) (asLane (sc.widen b) id lane) :=
  asLaneWith_alike h (Operand.ofLower h hid) lane

theorem condition_alike {id : ExprId} (hid : reached id) :
    AgreesIn E (condition sc id) (condition (sc.widen b) id) :=
  conditionWith_alike h (Operand.ofLower h hid)

theorem assign_alike {target value : ExprId} (htarget : reached target) (hvalue : reached value)
    (keep : Bool) :
    AgreesIn E (assign sc target value keep) (assign (sc.widen b) target value keep) :=
  assignWith_alike h htarget
    (fun e he child hmem => Operand.ofLower h (h.child target e child htarget he hmem))
    (Operand.ofLower h hvalue) keep

theorem discard_alike {id : ExprId} (hid : reached id) :
    AgreesIn E (discard sc id) (discard (sc.widen b) id) := by
  refine (h.expr hid).bind fun e he => ?_
  have hchild (child : ExprId) := h.child id e child hid (Scope.expr_eq_ok.mp he)
  cases e with
  | assign target value =>
    exact assign_alike h (hchild target (by simp))
      (hchild value (by simp)) false
  | update op operand => exact update_alike h op (hchild operand (by simp)) false
  | call callee args =>
    exact (callWith_alike h callee fun arg harg => Operand.ofLower h (hchild arg harg)).bind
      fun _ _ => .ok _
  | _ =>
    exact (Scope.laneOf_alike h hid).bind fun _ _ => (lower_alike h hid).bind fun _ _ => .ok _

end Lower

end

end WasmBackend
