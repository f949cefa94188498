import WasmBackend.Proofs.Data.Uses
import WasmBackend.Proofs.Memory.Elements
import WasmBackend.Proofs.Scoping.Sharing

/-!
# The element type of an array variable

The elements of an array literal are encoded at one type and accessed at another, and the two are
found separately. Encoding prefers the annotation of the literal to the declared type of the
variable; access goes by the type of the variable alone, which is the declared one if there is one.
So they agree if nothing is declared, and otherwise if the annotation and the declared type say the
same (`Arena.SameElements`, `array_scalars_agree_iff`). What is read at the wrong type is left to
`Memory.Elements`.
-/

namespace WasmBackend

open Compiled Lower

/-- How the elements of a variable of this type are accessed: as words, if it does not say. -/
def Ty.access (ty : Ty) : Scalar := (ty.element?.bind Ty.storage?).getD .i32

/-- The declared type of a variable does not contradict the literal that it is initialised with: an
annotation of the literal is stored like the declared elements. Where the declared type has no
elements, they are taken for words, and the literal has to have words. -/
def Arena.SameElements (arena : Arena) (declared : Option Ty) (elements : List ExprId)
    (stated : Option Ty) : Prop :=
  ∀ ty ∈ declared,
    (ty.element?.isSome → ∀ t ∈ stated, t.storage? = some ty.access) ∧
    (ty.element? = none → (arrayElementType arena stated none elements).storage? = some .i32)

/-! ## The type of the variable -/

section Locals

variable {info : ModuleInfo} {arena : Arena} {decl : LetDecl}

theorem Resolves.declarations {f : Frame} {lets : List LetDecl} {ds : List Declaration}
    (h : Resolves info arena f lets ds) (hdecl : decl ∈ lets) :
    ∃ g es, letDeclarations info arena g decl = .ok es ∧ es ⊆ ds := by
  induction h with
  | nil => cases hdecl
  | @cons f first rest es later hfirst _ ih =>
    rcases List.mem_cons.mp hdecl with rfl | hdecl
    · exact ⟨f, es, hfirst, List.subset_append_left _ _⟩
    · obtain ⟨g, found, hfound, hsub⟩ := ih hdecl
      exact ⟨g, found, hfound, List.Subset.trans hsub (List.subset_append_right _ _)⟩

/-- Once the locals of a body are declared, the one of a `let` with an array literal has its
declared type or that of the literal. -/
theorem declareLocals_arrayType {f f' : Frame} {body : StmtId} (hlocals : f.locals = {})
    (hdeclared : declareLocals info arena body f = .ok () f')
    (hdecl : decl ∈ Source.lets arena body) {elements : List ExprId} {stated : Option Ty}
    (hinit : arena.expr? decl.init = some (.array elements stated)) :
    f'.locals.get? decl.name =
      some ⟨decl.name, .localVar, decl.arrayType arena elements stated⟩ := by
  obtain ⟨ds, hds, hadmits, rfl⟩ := declareLocals_ok hdeclared
  obtain ⟨g, es, hes, hsub⟩ := hds.declarations hdecl
  have hone : letDeclarations info arena g decl =
      .ok [⟨.whole decl.name, decl.arrayType arena elements stated⟩] := by
    have hexpr : Scope.expr ⟨info, arena, some g⟩ decl.init = .ok (.array elements stated) :=
      Scope.expr_eq_ok.mpr hinit
    simp only [letDeclarations, hexpr, ok_bind, letType, LetDecl.arrayType, impliedType]
    cases decl.ty <;> rfl
  cases hone.symm.trans hes
  exact Frame.get?_addAll_of_agree hlocals (Frame.admitsAll_iff.mp hadmits).2
    (hsub (List.mem_singleton_self _))

end Locals

/-! ## Variables in scope -/

/-- The name of a `let` means its variable: a global that nothing hides, or a local of a function
whose locals were declared, that is visible, and that has kept its value since the code of the `let`
has run. -/
inductive Scope.Binds (m : Module) (sc : Scope) (env : Environment) (state : MachineState)
    (decl : LetDecl) : Prop
  | global {id : StmtId} (hitem : id ∈ m.items) (hid : m.arena.stmt? id = some (.letting decl))
      (hhidden : sc.lookupLocal? decl.name = none)
  | localVar {id : StmtId} {function : FunctionDecl} {start declared frame current : Frame}
      {code : Code} {names : List String} {before after : MachineState}
      (hitem : id ∈ m.items) (hid : m.arena.stmt? id = some (.function function))
      (hlet : decl ∈ Source.lets m.arena function.body) (hstart : start.locals = {})
      (hdeclared : declareLocals sc.info m.arena function.body start = .ok () declared)
      (hlocals : frame.locals = declared.locals)
      (hcode : letCode ⟨sc.info, m.arena, some frame⟩ frame.locals decl = .ok (code, names))
      (hrun : code.execute env [] before = .ok ([], after))
      (hcurrent : sc.frame = some current) (hsame : current.locals = declared.locals)
      (hvisible : decl.name ∉ current.pending)
      (hkept : state.registers (.localVar decl.name) = after.registers (.localVar decl.name))

section Variables

variable {m : Module} {base : Nat} {info : ModuleInfo} {decl : LetDecl} {sc : Scope}
  {env : Environment} {state : MachineState} {elements : List ExprId} {stated : Option Ty}

/-- A variable in scope can be used, and extraction has come to its `let`. -/
theorem Scope.Binds.bound (h : sc.Binds m env state decl) (hscope : sc.Within m info)
    (hinit : m.arena.expr? decl.init = some (.array elements stated)) :
    ∃ id, m.arena.stmt? id = some (.letting decl) ∧
      sc.Bound m env state id decl (decl.arrayType m.arena elements stated) := by
  cases h with
  | @global id hitem hid hhidden => exact ⟨id, hid, .global hitem hhidden⟩
  | @localVar id function _ _ _ _ _ _ _ _ hitem hid hlet hstart hdeclared hlocals hcode hrun
      hcurrent hsame hvisible hkept =>
    have hlocal := declareLocals_arrayType hstart hdeclared hlet hinit
    obtain ⟨inner, hinner, hinside⟩ := Source.inside_of_mem_lets hlet
    refine ⟨inner, hinner, .localVar ⟨id, hitem, .child hid (by simp) hinside⟩
      ?_ (hlocals ▸ hlocal) (hscope.arena ▸ hcode) hrun hkept⟩
    simp [lookupLocal?, hcurrent, Frame.visibleLocal?, hvisible, hsame, hlocal]

/-- An element of a variable is accessed as the type of the variable says, and the index is scaled
by the size of that. -/
theorem Lower.elementWith_access {sub : ExprId → Compiled Code} {root position : ExprId}
    {place : Place} {v : Variable} (hroot : sc.arena.expr? root = some (.ident decl.name))
    (hv : sc.lookup decl.name = .ok v) (h : elementWith sc sub root position = .ok place) :
    place.scalar = v.ty.access ∧ ∃ code, sub root = .ok code ∧
      (place.address = code ∨
        ∃ index, place.address = code ++ index ++ scaleIndex v.ty.access) := by
  have hscalar : sc.elementScalar root = .ok v.ty.access := by
    simp only [Scope.elementScalar, Scope.expr_eq_ok.mpr hroot, ok_bind,
      Scope.elementType, hv]
    rfl
  simp only [elementWith, hscalar, ok_bind, bind_ok] at h
  obtain ⟨code, hcode, e, -, h⟩ := h
  split at h
  · cases h
    exact ⟨rfl, code, hcode, .inl rfl⟩
  · simp only [bind_ok, pure_ok] at h
    obtain ⟨index, -, rfl⟩ := h
    exact ⟨rfl, code, hcode, .inr ⟨index, rfl⟩⟩

end Variables

/-- What is declared about a variable and what its literal says come to the same elements exactly if
encoding and access agree. -/
theorem Arena.sameElements_iff {arena : Arena} {decl : LetDecl} {elements : List ExprId}
    {stated : Option Ty} {s : Scalar}
    (hs : (arrayElementType arena stated (decl.ty.bind Ty.element?) elements).storage? = some s) :
    s = (decl.arrayType arena elements stated).access ↔
      arena.SameElements decl.ty elements stated := by
  unfold SameElements LetDecl.arrayType
  cases hty : decl.ty with
  | none =>
    rw [hty] at hs
    have haccess : (Ty.array (arrayElementType arena stated none elements)).access = s := by
      show ((arrayElementType arena stated none elements).storage?).getD .i32 = s
      rw [show (arrayElementType arena stated none elements).storage? = some s from hs]
      rfl
    simp [haccess]
  | some ty =>
    rw [hty] at hs
    simp only [Option.getD_some, Option.mem_def, Option.some.injEq, forall_eq']
    cases helement : ty.element? with
    | none =>
      have haccess : ty.access = .i32 := by simp [Ty.access, helement]
      have hs' : (arrayElementType arena stated none elements).storage? = some s := by
        simpa [helement] using hs
      simp [haccess, hs']
    | some element =>
      cases stated with
      | none =>
        -- The literal takes the elements that are declared.
        have hs' : element.storage? = some s := by simpa [helement, arrayElementType] using hs
        simp [Ty.access, helement, hs']
      | some t =>
        have hs' : t.storage? = some s := by simpa [arrayElementType] using hs
        simp [hs']

/-- The elements of an array literal in a variable are encoded as its last use says and accessed as
the type of the variable says. If the literal is used once, or has an annotation, the two agree
exactly if the declared type does not contradict the literal. -/
theorem array_scalars_agree_iff {m : Module} {base : Nat} {info : ModuleInfo}
    (h : m.extract base = .ok info) {decl : LetDecl} {elements : List ExprId} {stated : Option Ty}
    (hinit : m.arena.expr? decl.init = some (.array elements stated)) {sc : Scope}
    (hscope : sc.Within m info) {env : Environment} {state : MachineState}
    (hbinds : sc.Binds m env state decl) {root : ExprId}
    (hroot : m.arena.expr? root = some (.ident decl.name)) :
    ∃ v address bytes ty earlier inner align s,
      sc.lookup decl.name = .ok v ∧ v.ty = decl.arrayType m.arena elements stated ∧
      (v.ty.lane.isFloat = false →
        (Code.one (.get v)).Gives env state (.ok (.ofNat 32 address))) ∧
      info.literals.get? decl.init = some address ∧ ⟨address, bytes⟩ ∈ info.data.segments ∧
      Placement.encodeArray m.arena inner ty elements = .ok (bytes, align) ∧
      ty.storage? = some s ∧ m.elementTypes decl.init = ty :: earlier ∧
      (∀ sub position place, elementWith sc sub root position = .ok place →
        place.scalar = v.ty.access ∧ ∃ code, sub root = .ok code ∧
          (place.address = code ∨
            ∃ index, place.address = code ++ index ++ scaleIndex v.ty.access)) ∧
      (earlier = [] ∨ stated.isSome →
        (s = v.ty.access ↔ m.arena.SameElements decl.ty elements stated)) := by
  obtain ⟨id, hid, hbound⟩ := hbinds.bound hscope hinit
  obtain ⟨ty, earlier, address, bytes, align, inner, htypes, hown, haddress, hblock, hencode⟩ :=
    Module.extract_encoded h hbound.contains hid hinit
  obtain ⟨v, hlookup, hvty, hgives⟩ := hbound.gives h hscope hid hinit rfl haddress
  obtain ⟨s, hs⟩ : ∃ s, ty.storage? = some s := by
    unfold Placement.encodeArray at hencode
    cases hs : ty.storage? with
    | none => simp [hs] at hencode
    | some s => exact ⟨s, rfl⟩
  refine ⟨v, address, bytes, ty, earlier, inner, align, s, hlookup, hvty, hgives, haddress, hblock,
    hencode, hs, htypes, fun sub position place hplace => ?_, fun honce => ?_⟩
  · exact elementWith_access (hscope.arena ▸ hroot) hlookup hplace
  · rw [hvty]
    exact Arena.sameElements_iff (hown honce ▸ hs)

/-- A literal of bytes in a variable of words: `let g: i32[] = u8[1, 2]`, and then `g`. -/
def ration : Module where
  name := "ration"
  items := [0]
  arena := {
    exprs := #[.int 1, .int 2, .array [0, 1] (some (.scalar .u8)), .ident "g"]
    stmts := #[.letting ⟨"g", some (.array .i32), 2, false⟩] }

namespace ration

def info : ModuleInfo where
  name := "ration"
  globals := ⟨[("g", ⟨.array .i32, .memory 16, false, 2⟩)]⟩
  data := { base := 16, cursor := 18, blocks := [⟨16, [1, 2]⟩] }
  literals := ⟨[(2, 16)]⟩

theorem extract_eq : ration.extract 16 = .ok info := by decide +kernel

def scope : Scope := ⟨info, ration.arena, none⟩

def state : MachineState := ⟨fun _ => 0, .instantiate 65536 info.data.segments⟩

theorem binds : scope.Binds ration .silent state ⟨"g", some (.array .i32), 2, false⟩ :=
  .global (List.mem_singleton_self 0) rfl rfl

end ration

/-- The literal is used once and stored as bytes, but words are read from the variable. -/
theorem ration_scalars_differ : ration.extract 16 = .ok ration.info ∧
    ration.elementTypes 2 = [.scalar .u8] ∧
    ⟨16, [1, 2]⟩ ∈ ration.info.data.segments ∧
    ¬ ration.arena.SameElements (some (.array .i32)) [0, 1] (some (.scalar .u8)) ∧
    ∃ v s, ration.scope.lookup "g" = .ok v ∧ (Ty.scalar .u8).storage? = some s ∧
      s ≠ v.ty.access := by
  have hroot : ration.arena.expr? 3 = some (.ident "g") := rfl
  obtain ⟨v, address, bytes, ty, earlier, inner, align, s, hlookup, -, -, -, -, -, hs, htypes, -,
    hiff⟩ := array_scalars_agree_iff ration.extract_eq rfl ⟨rfl, rfl, rfl⟩ ration.binds hroot
  have huses : ration.elementTypes 2 = [.scalar .u8] := by decide +kernel
  cases huses.symm.trans htypes
  have hdiffer : ¬ ration.arena.SameElements (some (.array .i32)) [0, 1] (some (.scalar .u8)) := by
    intro hsame
    have hbytes := (hsame _ rfl).1 rfl (.scalar .u8) rfl
    exact absurd hbytes (by decide)
  refine ⟨ration.extract_eq, huses, by decide +kernel, hdiffer, v, s, hlookup, hs, fun heq => ?_⟩
  exact hdiffer ((hiff (.inl rfl)).mp heq)

end WasmBackend
