import WasmBackend.Proofs.Data.Recorded
import WasmBackend.Proofs.Memory.Blocks
import WasmBackend.Proofs.Memory.Members

/-!
# Reading array elements

Code for `g[i]…[k]` computes an address, loads from it, and goes on from what it loaded. How wide an
element is it knows from the declared type of `g`, for the first index only; from the second index
on every element is taken for a word.

So a path of one index reads back what was stored, and so does a longer path to elements that are as
wide as a word. A longer path to narrower elements reads the word at four times the last index
(`Memory.wordPath`), which is right only by chance. Floats are left out, and so are stores.
-/

namespace WasmBackend

open Compiled Lower

/-! ## Code that gives a value -/

namespace Code

/-- In this state the code adds this value to any stack, and changes nothing else. -/
def Gives (env : Environment) (state : MachineState) (code : Code) (value : Except Fault Word) :
    Prop :=
  ∀ stack, code.execute env stack state = value.map fun w => (w :: stack, state)

variable {env : Environment} {state : MachineState} {code : Code} {value : Except Fault Word}

theorem Gives.yields (h : code.Gives env state value) : code.yields env state = value := by
  unfold Code.yields
  rw [h []]
  cases value <;> rfl

theorem gives_intConst (n : Int) : (one (.intConst n)).Gives env state (.ok (.ofInt 32 n)) := by
  intro stack
  rw [execute_one]
  rfl

/-- An address plus a scaled index. -/
theorem execute_scaleIndex (s : Scalar) (base : Word) (i : Nat) (stack : List Word) :
    (scaleIndex s).execute env (.ofNat 32 i :: base :: stack) state =
      .ok ((base + .ofNat 32 (i * s.size)) :: stack, state) := by
  unfold scaleIndex
  split
  · next hsize =>
    rw [hsize, Nat.mul_one]
    rfl
  · have hscaled : BitVec.ofNat 32 i * BitVec.ofInt 32 s.size = .ofNat 32 (i * s.size) := by
      rw [BitVec.ofInt_natCast, BitVec.ofNat_mul]
    rw [← hscaled]
    rfl

end Code

/-! ## One index -/

section Index

variable {sc : Scope} {env : Environment} {state : MachineState}

/-- The expression can be lowered as an index, and its code gives this number. -/
def Scope.IndexAt (sc : Scope) (env : Environment) (state : MachineState) (position : ExprId)
    (i : Nat) : Prop :=
  ∃ code, asLane sc position .int = .ok code ∧ code.Gives env state (.ok (.ofNat 32 i))

/-- The code of an index is that of an expression which is there. -/
theorem asLane_expr {position : ExprId} {code : Code} (h : asLane sc position .int = .ok code) :
    ∃ e, sc.arena.expr? position = some e := by
  cases he : sc.arena.expr? position with
  | some e => exact ⟨e, rfl⟩
  | none =>
    have hlane : sc.laneOf position = .error (.danglingExpr position position) := by
      rw [Scope.laneOf, descend_eq]
      simp only [Scope.laneOfStep, Scope.expr, he]
      rfl
    simp only [asLane, asLaneWith, Scope.constant?, Constant.ofExpr?, he, hlane] at h
    cases h

/-- The code of a literal index gives the literal. -/
theorem asLane_int {position : ExprId} {value : Int64}
    (h : sc.arena.expr? position = some (.int value)) :
    ∃ code, asLane sc position .int = .ok code ∧
      code.Gives env state (.ok (.ofInt 32 value.toInt)) := by
  refine ⟨.one (.intConst (Instr.wrapped value)), ?_, ?_⟩
  · simp only [asLane, asLaneWith, Scope.constant?, Constant.ofExpr?, h]
    rfl
  · have hwrapped : BitVec.ofInt 32 value.toInt = .ofInt 32 (Instr.wrapped value) := by
      apply BitVec.eq_of_toInt_eq
      rw [BitVec.toInt_ofInt, BitVec.toInt_ofInt, Instr.wrapped, Int64.toInt_toInt32,
        Int.bmod_bmod]
    rw [hwrapped]
    exact Code.gives_intConst _

theorem Scope.indexAt_int {position : ExprId} {value : Int64}
    (hposition : sc.arena.expr? position = some (.int value)) {i : Nat} (hi : value.toInt = i) :
    sc.IndexAt env state position i := by
  rw [IndexAt, ← BitVec.ofInt_natCast, ← hi]
  exact asLane_int hposition

/-- The place of an element is found by scaling the index, also where no scaling is needed. -/
theorem elementWith_gives {sub : ExprId → Compiled Code} {base position : ExprId} {s : Scalar}
    (hs : sc.elementScalar base = .ok s) {code : Code} (hbase : sub base = .ok code) {w : Word}
    (hcode : code.Gives env state (.ok w)) (hsub : sub position = lower sc position) {i : Nat}
    (hposition : sc.IndexAt env state position i) :
    ∃ address, elementWith sc sub base position = .ok ⟨address, s, 0⟩ ∧
      address.Gives env state (.ok (w + .ofNat 32 (i * s.size))) := by
  obtain ⟨index, hindex, hgives⟩ := hposition
  have hindex' : asLaneWith sc sub position .int = .ok index := by
    rw [← hindex]
    simp only [asLane, asLaneWith, hsub]
  obtain ⟨e, he⟩ := asLane_expr hindex
  simp only [elementWith, hs, hbase, Scope.expr_eq_ok.mpr he, ok_bind, hindex']
  split
  · -- The code of a literal zero gives zero, so there was nothing to add.
    refine ⟨code, rfl, ?_⟩
    obtain ⟨zero, hzero, hgivesZero⟩ := asLane_int he
    cases hindex.symm.trans hzero
    have hi : BitVec.ofNat 32 i = 0#32 := Except.ok.inj (hgives.yields.symm.trans hgivesZero.yields)
    rw [BitVec.ofNat_mul, hi, BitVec.zero_mul, BitVec.add_zero]
    exact hcode
  · refine ⟨code ++ index ++ scaleIndex s, rfl, fun stack => ?_⟩
    rw [Code.execute_append, Code.execute_append, hcode stack]
    show ((index.execute env (w :: stack) state).bind _) = _
    rw [hgives (w :: stack)]
    exact Code.execute_scaleIndex s w i stack

/-- Indexing loads from the element's place. -/
theorem lower_index (harena : sc.arena.Descending) {base position next : ExprId}
    (hnext : sc.arena.expr? next = some (.index base position)) {s : Scalar}
    (hs : sc.elementScalar base = .ok s) {code : Code} (hbase : lower sc base = .ok code)
    {address : Nat} (hcode : code.Gives env state (.ok (.ofNat 32 address))) {i : Nat}
    (hposition : sc.IndexAt env state position i) :
    ∃ code, lower sc next = .ok code ∧
      code.Gives env state (state.memory.load s (.ofNat 32 (address + i * s.size)) 0) := by
  have hchild := harena next _ hnext
  rw [lower, descend_eq, ← lower]
  simp only [lowerStep, Scope.expr_eq_ok.mpr hnext, ok_bind]
  let sub (child : ExprId) : Compiled Code :=
    if child < next then lower sc child else .error (.danglingExpr next child)
  have hsub {child : ExprId} (h : child ∈ (Expr.index base position).children) :
      sub child = lower sc child := if_pos (hchild child h)
  obtain ⟨place, hplace, hgives⟩ := elementWith_gives hs
    ((hsub (by simp)).trans hbase) hcode (hsub (by simp)) hposition
  refine ⟨Place.load ⟨place, s, 0⟩, by rw [hplace]; rfl, fun stack => ?_⟩
  rw [BitVec.ofNat_add, Place.load, Code.execute_append, hgives stack]
  exact Code.execute_one env (.load s 0) _ _

end Index

/-! ## Paths -/

/-- The expression indexes another one by the indices of a path, one after the other. -/
inductive Scope.Indexes (sc : Scope) (env : Environment) (state : MachineState) :
    ExprId → List Nat → ExprId → Prop
  | nil (x : ExprId) : Indexes sc env state x [] x
  | cons {base position next x : ExprId} {i : Nat} {path : List Nat}
      (hnext : sc.arena.expr? next = some (.index base position))
      (hposition : sc.IndexAt env state position i) (hrest : Indexes sc env state next path x) :
      Indexes sc env state base (i :: path) x

/-- Where a path leads if every element on it is a word. -/
def Memory.wordPath (m : Memory) : Nat → List Nat → Nat
  | address, [] => address
  | address, [i] => address + i * 4
  | address, i :: path => m.wordPath (m.number (address + i * 4) 4) path

section Paths

variable {sc : Scope} {env : Environment} {state : MachineState} {blocks : List DataBlock}
  {s : Scalar} {c : Constant} {ty : Ty} {path : List Nat} {address : Nat}

/-- Of what is not a variable, nothing is known about the elements. -/
theorem elementScalar_index {base position next : ExprId}
    (h : sc.arena.expr? next = some (.index base position)) :
    sc.elementScalar next = .ok .i32 := by
  simp only [Scope.elementScalar, Scope.expr_eq_ok.mpr h, ok_bind, Scope.elementType]
  rfl

theorem DataBlock.Leads.ne_nil (h : DataBlock.Leads blocks s c ty path address) : path ≠ [] := by
  cases h <;> simp

section Limit

variable (hlimit : ∀ b ∈ blocks, b.stop < addressSpace)
include hlimit

theorem DataBlock.Leads.lt_addressSpace (h : DataBlock.Leads blocks s c ty path address) :
    address < addressSpace := by
  have hblock : ∃ bytes, (⟨address, bytes⟩ : DataBlock) ∈ blocks := by
    cases h with
    | constant hblock _ => exact ⟨_, hblock⟩
    | inner hblock _ _ => exact ⟨_, hblock⟩
  obtain ⟨bytes, hblock⟩ := hblock
  exact Nat.lt_of_le_of_lt (Nat.le_add_right address bytes.length) (hlimit _ hblock)

variable (hm : state.memory.Carries blocks)
include hm

theorem wordPath_inner {i target : Nat} {bytes : List UInt8}
    (hblock : ⟨address, bytes⟩ ∈ blocks)
    (hpart : DataBlock.HasAt bytes (i * 4) (littleEndian 4 target))
    (hrest : DataBlock.Leads blocks s c ty path target) :
    state.memory.wordPath address (i :: path) = state.memory.wordPath target path := by
  have htarget : state.memory.number (address + i * 4) 4 = target := by
    rw [hm.number_eq hblock hpart]
    exact Nat.mod_eq_of_lt (hrest.lt_addressSpace hlimit)
  cases path with
  | nil => exact absurd rfl hrest.ne_nil
  | cons j rest => rw [Memory.wordPath, htarget]; simp

/-- Elements as wide as a word are read back along a path of words. -/
theorem load_wordPath (hleads : DataBlock.Leads blocks s c ty path address) (hs : s ≠ .f32)
    (hsize : s.size = 4) :
    state.memory.load .i32 (.ofNat 32 (state.memory.wordPath address path)) 0 =
      .ok (.ofInt 32 (s.wrap c.toInt64.toInt)) := by
  induction hleads with
  | @constant i address bytes hblock hpart =>
    rw [Memory.wordPath, ← Memory.load_word hsize, ← hsize]
    exact Memory.load_constant hm hlimit hblock hs hpart
  | inner hblock hpart hrest ih => rw [wordPath_inner hlimit hm hblock hpart hrest, ih]

/-- Indexing an array of arrays gives the address of an inner one. -/
theorem lower_index_inner (harena : sc.arena.Descending) {base position next : ExprId}
    (hnext : sc.arena.expr? next = some (.index base position)) {s' : Scalar} (hsize : s'.size = 4)
    (hscalar : sc.elementScalar base = .ok s') {code : Code} (hbase : lower sc base = .ok code)
    (hcode : code.Gives env state (.ok (.ofNat 32 address))) {i target : Nat}
    (hposition : sc.IndexAt env state position i) {bytes : List UInt8}
    (hblock : ⟨address, bytes⟩ ∈ blocks)
    (hpart : DataBlock.HasAt bytes (i * 4) (littleEndian 4 target))
    (hrest : DataBlock.Leads blocks s c ty path target) :
    ∃ code, lower sc next = .ok code ∧ code.Gives env state (.ok (.ofNat 32 target)) := by
  have hload := Memory.load_address hm hlimit hblock hpart (hrest.lt_addressSpace hlimit) hsize
  rw [← hload, ← hsize]
  exact lower_index harena hnext hscalar hbase hcode hposition

/-- From an inner array on, code reads the word where a path of words leads. -/
theorem lower_indexes (harena : sc.arena.Descending)
    (hleads : DataBlock.Leads blocks s c ty path address) {root x : ExprId}
    (hscalar : sc.elementScalar root = .ok .i32) (hindexes : sc.Indexes env state root path x)
    {code : Code} (hroot : lower sc root = .ok code)
    (hcode : code.Gives env state (.ok (.ofNat 32 address))) :
    ∃ code, lower sc x = .ok code ∧ code.Gives env state
      (state.memory.load .i32 (.ofNat 32 (state.memory.wordPath address path)) 0) := by
  induction hleads generalizing root code with
  | constant hblock hpart =>
    cases hindexes with
    | cons hnext hposition hrest =>
      cases hrest
      exact lower_index harena hnext hscalar hroot hcode hposition
  | inner hblock hpart hleads ih =>
    cases hindexes with
    | cons hnext hposition hrest =>
      obtain ⟨code', hcode', hgives⟩ := lower_index_inner hlimit hm harena hnext rfl hscalar hroot
        hcode hposition hblock hpart hleads
      rw [wordPath_inner hlimit hm hblock hpart hleads]
      exact ih (elementScalar_index hnext) hrest hcode' hgives

/-- Code for a path that starts at a variable: one index reads the element, more read a word. -/
theorem lower_path (harena : sc.arena.Descending)
    (hleads : DataBlock.Leads blocks s c ty path address) (hs : s ≠ .f32) {root x : ExprId}
    {name : String} {v : Variable} (hroot : sc.arena.expr? root = some (.ident name))
    (hlookup : sc.lookup name = .ok v) (hty : v.ty = .array ty)
    (hget : (Code.one (.get v)).Gives env state (.ok (.ofNat 32 address)))
    (hindexes : sc.Indexes env state root path x) :
    ∃ code, lower sc x = .ok code ∧ code.Gives env state
      (if path.length = 1 then .ok (.ofInt 32 (s.wrap c.toInt64.toInt))
        else state.memory.load .i32 (.ofNat 32 (state.memory.wordPath address path)) 0) := by
  have hcode : lower sc root = .ok (.one (.get v)) := by
    rw [lower, descend_eq]
    simp only [lowerStep, Scope.expr_eq_ok.mpr hroot, hlookup, ok_bind]
    rfl
  have hscalar : sc.elementScalar root = .ok (ty.storage?.getD .i32) := by
    simp only [Scope.elementScalar, Scope.expr_eq_ok.mpr hroot, ok_bind,
      Scope.elementType, hlookup, hty]
    rfl
  -- The first index knows the element type from the variable; from the second on it is a word.
  cases hleads with
  | constant hblock hpart =>
    cases hindexes with
    | cons hnext hposition hrest =>
      cases hrest
      rw [if_pos List.length_singleton, ← Memory.load_constant hm hlimit hblock hs hpart]
      exact lower_index harena hnext hscalar hcode hget hposition
  | inner hblock hpart hleads =>
    cases hindexes with
    | cons hnext hposition hrest =>
      obtain ⟨code, hcode', hgives⟩ := lower_index_inner hlimit hm harena hnext rfl hscalar hcode
        hget hposition hblock hpart hleads
      rw [if_neg (by simpa using hleads.ne_nil), wordPath_inner hlimit hm hblock hpart hleads]
      exact lower_indexes hlimit hm harena hleads (elementScalar_index hnext) hrest hcode' hgives

end Limit

end Paths

/-! ## Variables -/

/-- The scope is one of the module: linking may have settled the imports, but nothing else. -/
structure Scope.Within (sc : Scope) (m : Module) (info : ModuleInfo) : Prop where
  arena : sc.arena = m.arena
  globals : sc.info.globals = info.globals
  literals : sc.info.literals = info.literals

/-- The variable of a `let` can be used by its name: it is a global that nothing hides, or it is a
visible local, the code of the `let` has run, and the local has kept its value since. -/
inductive Scope.Bound (m : Module) (sc : Scope) (env : Environment) (state : MachineState)
    (id : StmtId) (decl : LetDecl) (ty : Ty) : Prop
  | global (hitem : id ∈ m.items) (hhidden : sc.lookupLocal? decl.name = none)
  | localVar {frame : Frame} {code : Code} {names : List String} {before after : MachineState}
      (hcontains : m.Contains id)
      (hvisible : sc.lookupLocal? decl.name = some ⟨decl.name, .localVar, ty⟩)
      (hlocal : frame.locals.get? decl.name = some ⟨decl.name, .localVar, ty⟩)
      (hcode : letCode ⟨sc.info, sc.arena, some frame⟩ frame.locals decl = .ok (code, names))
      (hrun : code.execute env [] before = .ok ([], after))
      (hkept : state.registers (.localVar decl.name) = after.registers (.localVar decl.name))

/-- The type of a variable that is initialised with an array literal. -/
def LetDecl.arrayType (decl : LetDecl) (arena : Arena) (elements : List ExprId)
    (stated : Option Ty) : Ty :=
  decl.ty.getD (.array (arrayElementType arena stated none elements))

section Variables

variable {m : Module} {base : Nat} {info : ModuleInfo} {id : StmtId} {decl : LetDecl} {ty : Ty}
  {elements : List ExprId} {stated : Option Ty} {address : Nat}

/-- A global with an array literal for initialiser lives at the literal's address, with its declared
type or that of the literal. -/
theorem Module.extract_arrayGlobal (h : m.extract base = .ok info) (hitem : id ∈ m.items)
    (hid : m.arena.stmt? id = some (.letting decl))
    (hinit : m.arena.expr? decl.init = some (.array elements stated))
    (haddress : info.literals.get? decl.init = some address) :
    ∃ g, info.globals.get? decl.name = some g ∧ g.ty = decl.arrayType m.arena elements stated ∧
      g.storage = .memory address := by
  have hkeys := (extract_distinct h).globals
  obtain ⟨declared, placed, hdeclared, -, rfl⟩ := extract_ok h
  have hdecl : decl ∈ m.letDecls := by
    simp only [letDecls, itemStmts, List.mem_filterMap]
    exact ⟨(id, .letting decl), ⟨id, hitem, by simp [hid]⟩, rfl⟩
  obtain ⟨⟨name, g⟩, hentry, hadds⟩ :=
    exists_of_forall₂ (declarations_records hdeclared).globals hdecl
  obtain rfl : name = decl.name := hadds.name
  have hshape : globalShape m.arena decl =
      .ok (decl.arrayType m.arena elements stated, .memory 0) := by
    unfold globalShape LetDecl.arrayType
    rw [hinit]
    cases decl.ty <;> rfl
  obtain ⟨storage, hshape', hmemory⟩ := hadds.shape
  obtain ⟨htyped, rfl⟩ := Prod.mk.inj (Except.ok.inj (hshape.symm.trans hshape'))
  obtain ⟨before, hstorage⟩ : ∃ before, g.storage = .memory before := by
    cases hg : g.storage with
    | register => exact absurd hmemory (by simp [hg, Storage.isMemory])
    | memory before => exact ⟨before, rfl⟩
  -- The global was entered with a dummy address, in whose place comes that of the literal.
  refine ⟨{ g with storage := .memory address }, (Table.get?_eq_some_iff hkeys).mpr ?_,
    htyped.symm, rfl⟩
  refine List.mem_map.mpr ⟨(decl.name, g), hentry, ?_⟩
  have hinit' : g.init = decl.init := hadds.init
  have haddress' : placed.literals.get? decl.init = some address := haddress
  simp only [hstorage, hinit', haddress']

variable {sc : Scope} {env : Environment} {state : MachineState}

/-- A local with an array literal for initialiser holds the literal's address once the `let` has
run, unless its type makes a float of it. -/
theorem letCode_array {frame : Frame} {code : Code} {names : List String}
    {before after : MachineState}
    (hinit : sc.arena.expr? decl.init = some (.array elements stated))
    (haddress : sc.info.literals.get? decl.init = some address)
    (hlocal : frame.locals.get? decl.name = some ⟨decl.name, .localVar, ty⟩)
    (hlane : ty.lane.isFloat = false)
    (hcode : letCode ⟨sc.info, sc.arena, some frame⟩ frame.locals decl = .ok (code, names))
    (hrun : code.execute env [] before = .ok ([], after)) :
    after.registers (.localVar decl.name) = .ofNat 32 address := by
  have hexpr : Scope.expr ⟨sc.info, sc.arena, some frame⟩ decl.init =
      .ok (.array elements stated) := Scope.expr_eq_ok.mpr hinit
  have hlower : lower ⟨sc.info, sc.arena, some frame⟩ decl.init =
      .ok (.one (.intConst address)) := by
    rw [lower, descend_eq]
    simp only [lowerStep, hexpr, ok_bind, haddress]
    rfl
  have hsource : Scope.laneOf ⟨sc.info, sc.arena, some frame⟩ decl.init = .ok .int :=
    Scope.laneOf_literal hinit rfl
  have hvalue := (asLane_eq_lower hsource hlane).trans hlower
  simp only [letCode, hexpr, hlocal, hvalue, ok_bind, pure_ok] at hcode
  cases hcode
  cases hrun
  show (before.registers.set (.localVar decl.name) (.ofInt 32 address)) (.localVar decl.name) = _
  rw [Store.set_self, BitVec.ofInt_natCast]

/-- The variable of a `let` that can be used gives the address of its initialiser, unless its type
makes a float of it. -/
theorem Scope.Bound.gives (hbound : sc.Bound m env state id decl ty)
    (h : m.extract base = .ok info) (hscope : sc.Within m info)
    (hid : m.arena.stmt? id = some (.letting decl))
    (hinit : m.arena.expr? decl.init = some (.array elements stated))
    (hty : decl.arrayType m.arena elements stated = ty)
    (haddress : info.literals.get? decl.init = some address) :
    ∃ v, sc.lookup decl.name = .ok v ∧ v.ty = ty ∧ (v.ty.lane.isFloat = false →
      (Code.one (.get v)).Gives env state (.ok (.ofNat 32 address))) := by
  cases hbound with
  | global hitem hhidden =>
    obtain ⟨g, hg, hgty, hstorage⟩ := Module.extract_arrayGlobal h hitem hid hinit haddress
    refine ⟨⟨decl.name, .memory address, g.ty⟩, ?_, hgty.trans hty, fun _ => ?_⟩
    · simp only [lookup, hhidden, lookupGlobal, hscope.globals, hg, hstorage]
    · rw [← BitVec.ofInt_natCast]
      exact Code.gives_intConst address
  | localVar hcontains hvisible hlocal hcode hrun hkept =>
    refine ⟨⟨decl.name, .localVar, ty⟩, ?_, rfl, fun hlane stack => ?_⟩
    · simp only [lookup, hvisible]
    have hheld := letCode_array (hscope.arena ▸ hinit) (hscope.literals ▸ haddress) hlocal hlane
      hcode hrun
    rw [Code.execute_one]
    show Except.ok (state.registers (.localVar decl.name) :: stack, state) = _
    rw [hkept, hheld]
    rfl

theorem Scope.Bound.contains (hbound : sc.Bound m env state id decl ty) : m.Contains id := by
  cases hbound with
  | global hitem _ => exact ⟨id, hitem, .self⟩
  | localVar hcontains => exact hcontains

end Variables

/-! ## Reading back -/

/-- An array literal in a variable reads back exactly if it is indexed once, if its elements are as
wide as a word, or if the word that is read instead happens to be the right one. -/
theorem array_element_reads_back_iff {m : Module} (harena : m.arena.Descending) {base : Nat}
    {info : ModuleInfo} (hextract : m.extract base = .ok info) {elementOf : ExprId → Ty}
    (hagrees : m.arena.Agrees elementOf) {id : StmtId} {decl : LetDecl}
    (hid : m.arena.stmt? id = some (.letting decl)) {ty : Ty} (hty : decl.ty = some (.array ty))
    {s : Scalar} (hs : s ≠ .f32) {c : Constant} {path : List Nat}
    (hpath : m.arena.ElementAt s c (.array ty) decl.init path) {sc : Scope}
    (hscope : sc.Within m info) {env : Environment} {state : MachineState}
    (hmemory : state.memory.Carries info.data.segments)
    (hbound : sc.Bound m env state id decl (.array ty)) {root x : ExprId}
    (hroot : m.arena.expr? root = some (.ident decl.name))
    (hindexes : sc.Indexes env state root path x) :
    ∃ address code, info.literals.get? decl.init = some address ∧ lower sc x = .ok code ∧
      (path.length ≠ 1 → code.yields env state =
        state.memory.load .i32 (.ofNat 32 (state.memory.wordPath address path)) 0) ∧
      (code.yields env state = .ok (.ofInt 32 (s.wrap c.toInt64.toInt)) ↔
        path.length = 1 ∨ s.size = 4 ∨
          state.memory.load .i32 (.ofNat 32 (state.memory.wordPath address path)) 0 =
            .ok (.ofInt 32 (s.wrap c.toInt64.toInt))) := by
  obtain ⟨elements, hinit⟩ : ∃ elements, m.arena.expr? decl.init = some (.array elements none) := by
    cases hpath with
    | element hinit => exact ⟨_, hinit⟩
  have hlimit := (Module.extract_data hextract).laid.limit
  obtain ⟨address, haddress, hleads⟩ := Module.extract_leads hextract hagrees hbound.contains hid
    hty (Placement.isArray_iff.mpr ⟨_, _, hinit⟩)
  have hleads := hleads s c path hpath
  obtain ⟨v, hlookup, hvty, hget⟩ := hbound.gives hextract hscope hid hinit
    (by rw [LetDecl.arrayType, hty]; rfl) haddress
  have hget := hget (hvty ▸ rfl)
  obtain ⟨code, hcode, hgives⟩ := lower_path hlimit hmemory (hscope.arena ▸ harena) hleads hs
    (hscope.arena ▸ hroot) hlookup hvty hget hindexes
  have hyields := hgives.yields
  refine ⟨address, code, haddress, hcode, fun hlength => ?_, ?_⟩
  · rw [hyields, if_neg hlength]
  · rw [hyields]
    -- One index is always right, and a word is enough if elements are as wide as one.
    by_cases hlength : path.length = 1
    · simp [hlength]
    · have hwide (hsize : s.size = 4) := load_wordPath hlimit hmemory hleads hs hsize
      rw [if_neg hlength]
      constructor
      · intro hload
        exact .inr (.inr hload)
      · rintro (hone | hsize | hload)
        · exact absurd hone hlength
        · exact hwide hsize
        · exact hload

/-- Bytes in an array of arrays: `let grid: u8[][] = [[1, 2]]`, and then `grid[0][1]`. -/
def grid : Module where
  name := "grid"
  items := [0]
  arena := {
    exprs := #[
      .int 1, .int 2, .array [0, 1] none, .array [2] none,
      .ident "grid", .int 0, .index 4 5, .int 1, .index 6 7]
    stmts := #[.letting ⟨"grid", some (.array (.array (.scalar .u8))), 3, false⟩] }

namespace grid

def info : ModuleInfo where
  name := "grid"
  globals := ⟨[("grid", ⟨.array (.array (.scalar .u8)), .memory 20, false, 3⟩)]⟩
  data := { base := 16, cursor := 24, blocks := [⟨16, [1, 2]⟩, ⟨20, [16, 0, 0, 0]⟩] }
  literals := ⟨[(2, 16), (3, 20)]⟩

theorem extract_eq : grid.extract 16 = .ok info := by decide +kernel

theorem descending : grid.arena.Descending := grid.descending_of_validate (by decide +kernel)

theorem stmt_eq :
    grid.arena.stmt? 0 = some (.letting ⟨"grid", some (.array (.array (.scalar .u8))), 3, false⟩) :=
  rfl

def scope : Scope := ⟨info, grid.arena, none⟩

def state : MachineState := ⟨fun _ => 0, .instantiate 65536 info.data.segments⟩

theorem carries : state.memory.Carries info.data.segments :=
  Memory.instantiate_carries (Module.extract_data extract_eq).laid (by decide)

def elementOf (id : ExprId) : Ty := if id = 3 then .array (.scalar .u8) else .scalar .u8

theorem agrees : grid.arena.Agrees elementOf where
  lets := by
    intro id decl elementTy hid hty _
    match id with
    | 0 =>
      cases hid
      cases hty
      rfl
  nested := by
    intro id elements stated inner hid hinner e he _
    match id with
    | 0 | 1 | 4 | 5 | 6 | 7 | 8 | _ + 9 => cases hid
    | 2 =>
      cases hid
      cases hinner
    | 3 =>
      cases hid
      cases hinner
      cases List.mem_singleton.mp he
      rfl

theorem elementAt : grid.arena.ElementAt .u8 (.int 2) (.array (.array (.scalar .u8))) 3 [0, 1] :=
  .element (e := 2) rfl rfl (.element (e := 1) rfl rfl (.constant rfl))

theorem indexes : scope.Indexes .silent state 4 [0, 1] 8 := by
  have hrow : scope.arena.expr? 6 = some (.index 4 5) := rfl
  have hbyte : scope.arena.expr? 8 = some (.index 6 7) := rfl
  exact .cons hrow (Scope.indexAt_int rfl rfl) (.cons hbyte (Scope.indexAt_int rfl rfl) (.nil 8))

end grid

/-- The second byte of the inner array is two, but the word four bytes on is read, which is the
address of the inner array. -/
theorem grid_element_misread : grid.extract 16 = .ok grid.info ∧
    grid.arena.ElementAt .u8 (.int 2) (.array (.array (.scalar .u8))) 3 [0, 1] ∧
    grid.state.memory.Carries grid.info.data.segments ∧
    ∃ code, lower grid.scope 8 = .ok code ∧ code.yields .silent grid.state = .ok 16 ∧
      code.yields .silent grid.state ≠ .ok (.ofInt 32 (Scalar.u8.wrap 2)) := by
  refine ⟨grid.extract_eq, grid.elementAt, grid.carries, ?_⟩
  obtain ⟨address, code, haddress, hcode, hyields, hiff⟩ :=
    array_element_reads_back_iff grid.descending grid.extract_eq grid.agrees grid.stmt_eq rfl
      (by decide) grid.elementAt ⟨rfl, rfl, rfl⟩ grid.carries (.global (by decide) rfl) rfl
      grid.indexes
  cases haddress
  have hread : code.yields .silent grid.state = .ok 16 := by
    rw [hyields (by decide)]
    decide +kernel
  refine ⟨code, hcode, hread, fun hright => ?_⟩
  rw [hread] at hright
  exact absurd hright (by decide)

end WasmBackend
