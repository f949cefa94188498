import WasmBackend.Proofs.Memory.Depth
import WasmBackend.Proofs.Memory.Elements

/-!
# Reading back what was assigned

An assignment through memory and an expression that reads the same place find the place on their
own: each computes the address, the width of the access and its offset. A place is reached from a
variable (`MemoryPlace`), and both ways lead to the address that its parts say
(`Scope.DenotesPlace.place`). So what was assigned is read back, as much of it as the place can
hold. Variables that need no address are left out.
-/

namespace WasmBackend

open Compiled Lower

/-! ## Values -/

/-- The word that the name of a variable stands for; that of constant data is its address. -/
def Variable.word (v : Variable) (state : MachineState) : Word :=
  match v.scope with
  | .localVar => state.registers (.localVar v.name)
  | .param => state.registers (.localVar v.name)
  | .global => state.registers (.globalVar v.name)
  | .importedMemory => state.registers (.globalVar v.name)
  | .memory address => .ofNat 32 address

theorem Variable.word_congr (v : Variable) {state state' : MachineState}
    (h : state'.registers = state.registers) : v.word state' = v.word state := by
  unfold word
  rw [h]

section Values

variable {env : Environment} {state : MachineState}

theorem Code.gives_get (v : Variable) :
    (Code.one (.get v)).Gives env state (.ok (v.word state)) := by
  obtain ⟨name, scope, ty⟩ := v
  intro stack
  rw [Code.execute_one]
  cases scope with
  | memory address =>
    show Except.ok (BitVec.ofInt 32 address :: stack, state) = _
    rw [BitVec.ofInt_natCast]
    rfl
  | _ => rfl

end Values

/-! ## Places -/

/-- What an array is indexed by: a literal or a variable. -/
inductive PlaceIndex where
  | literal (value : Int64)
  | named (v : Variable)

/-- What the index is in this state. -/
def PlaceIndex.word : PlaceIndex → MachineState → Word
  | .literal value, _ => .ofInt 32 value.toInt
  | .named v, state => v.word state

/-- A place in memory that is reached from a variable, by an index or without one. -/
structure MemoryPlace where
  base : Variable
  index : Option PlaceIndex
  scalar : Scalar
  offset : Nat

/-- The address of a place. The base and the scaled index wrap around, the offset does not. -/
def MemoryPlace.address (p : MemoryPlace) (state : MachineState) : Nat :=
  ((p.base.word state).toNat +
    (p.index.elim 0 fun i => (i.word state).toNat) * p.scalar.size) % 2 ^ 32 + p.offset

/-- A place is found through registers only. -/
theorem MemoryPlace.address_congr (p : MemoryPlace) {state state' : MachineState}
    (h : state'.registers = state.registers) : p.address state' = p.address state := by
  have hindex (i : PlaceIndex) : i.word state' = i.word state := by
    cases i with
    | literal value => rfl
    | named v => exact v.word_congr h
  simp only [address, p.base.word_congr h, hindex]

/-- The expression is an index of this kind. -/
inductive Scope.IndexedBy (sc : Scope) (position : ExprId) : PlaceIndex → Prop
  | literal {value : Int64} (he : sc.arena.expr? position = some (.int value)) :
      IndexedBy sc position (.literal value)
  | named {x : String} {v : Variable} (he : sc.arena.expr? position = some (.ident x))
      (hv : sc.lookup x = .ok v) (hlane : v.ty.lane.isFloat = false) :
      IndexedBy sc position (.named v)

/-- The expression denotes this place: it is `a[i]`, `*p` or `p->m` for a variable. An element is
stored as the type of the variable says, or as a word if that says nothing. -/
inductive Scope.DenotesPlace (sc : Scope) (target : ExprId) : MemoryPlace → Prop
  | index {base position : ExprId} {x : String} {v : Variable} {i : PlaceIndex}
      (htarget : sc.arena.expr? target = some (.index base position))
      (hbase : sc.arena.expr? base = some (.ident x)) (hv : sc.lookup x = .ok v)
      (hposition : sc.IndexedBy position i) :
      DenotesPlace sc target ⟨v, some i, (v.ty.element?.bind Ty.storage?).getD .i32, 0⟩
  | deref {base : ExprId} {x : String} {v : Variable}
      (htarget : sc.arena.expr? target = some (.unary .deref base))
      (hbase : sc.arena.expr? base = some (.ident x)) (hv : sc.lookup x = .ok v) :
      DenotesPlace sc target ⟨v, none, (v.ty.element?.bind Ty.storage?).getD .i32, 0⟩
  | pointerMember {base : ExprId} {x name structName : String} {v : Variable}
      {struct : StructLayout} {layout : MemberLayout} {s : Scalar}
      (htarget : sc.arena.expr? target = some (.pointerMember base name))
      (hbase : sc.arena.expr? base = some (.ident x)) (hv : sc.lookup x = .ok v)
      (hname : v.ty.structName? = some structName)
      (hstruct : sc.info.structLayout structName = .ok struct)
      (hmember : struct.member name = .ok layout) (hs : layout.ty.storage? = some s) :
      DenotesPlace sc target ⟨v, none, s, layout.offset⟩

section Places

variable {env : Environment} {sc : Scope}

theorem Scope.IndexedBy.indexAt {position : ExprId} {i : PlaceIndex}
    (h : sc.IndexedBy position i) (state : MachineState) :
    sc.IndexAt env state position (i.word state).toNat := by
  unfold IndexAt
  rw [BitVec.ofNat_toNat, BitVec.setWidth_eq]
  cases h with
  | literal he => exact asLane_int he
  | @named x v he hv hlane =>
    have hsource : sc.laneOf position = .ok v.ty.lane := by
      rw [laneOf_ident he, hv]
      rfl
    refine ⟨_, ?_, Code.gives_get _⟩
    have hown : asLane sc position .int = lower sc position := asLane_eq_lower hsource hlane.symm
    exact hown.trans (lower_ident he hv)

theorem Scope.elementScalar_ident {base : ExprId} {x : String} {v : Variable}
    (hbase : sc.arena.expr? base = some (.ident x)) (hv : sc.lookup x = .ok v) :
    sc.elementScalar base = .ok ((v.ty.element?.bind Ty.storage?).getD .i32) := by
  simp only [elementScalar, expr_eq_ok.mpr hbase, ok_bind, elementType, hv]
  rfl

/-- The lowered place of a target accesses what it should, at the address that it should. -/
structure Lower.Place.Realises (env : Environment) (state : MachineState) (place : Place)
    (p : MemoryPlace) : Prop where
  scalar : place.scalar = p.scalar
  offset : place.offset = p.offset
  address : ∃ base : Word, base.toNat + p.offset = p.address state ∧
    place.address.Gives env state (.ok base)

/-- A variable's own word is the address, if nothing is added to it. -/
theorem Lower.Place.realises_get (state : MachineState) (v : Variable) (s : Scalar)
    (offset : Nat) : Realises env state ⟨.one (.get v), s, offset⟩ ⟨v, none, s, offset⟩ := by
  refine ⟨rfl, rfl, v.word state, ?_, Code.gives_get v⟩
  simp only [MemoryPlace.address, Option.elim_none, Nat.zero_mul, Nat.add_zero]
  rw [Nat.mod_eq_of_lt (v.word state).isLt]

/-- An assignment finds the place that its target denotes, and an expression that reads the target
finds the same. -/
theorem Scope.DenotesPlace.place {target : ExprId} {p : MemoryPlace} (h : sc.DenotesPlace target p)
    (harena : sc.arena.Descending) (env : Environment) (state : MachineState) :
    ∃ e place, sc.arena.expr? target = some e ∧
      (∀ value keep, assignWith sc (lower sc) target value keep =
        assignPlaceWith sc (lower sc) e value keep) ∧
      targetPlaceWith sc (lower sc) e = .ok place ∧ lower sc target = .ok place.load ∧
      place.Realises env state p := by
  cases h with
  | @index base position x v i htarget hbase hv hposition =>
    have hscalar := elementScalar_ident hbase hv
    have hcode := lower_ident hbase hv
    have hindex : sc.IndexAt env state position (i.word state).toNat := hposition.indexAt state
    obtain ⟨address, hplace, hgives⟩ :=
      elementWith_gives hscalar hcode (Code.gives_get v) rfl hindex
    refine ⟨_, _, htarget, fun value keep => ?_, hplace, ?_, rfl, rfl, _, ?_, hgives⟩
    · simp only [assignWith, expr_eq_ok.mpr htarget, ok_bind]
    · have hlt := harena target _ htarget
      rw [lower, descend_eq, ← lower]
      simp only [lowerStep, expr_eq_ok.mpr htarget, ok_bind]
      have hsame : elementWith sc (fun child => if child < target then lower sc child
          else .error (.danglingExpr target child)) base position =
          elementWith sc (lower sc) base position := by
        simp only [elementWith, asLaneWith, hlt base (by simp),
          hlt position (by simp), if_true]
      rw [hsame, hplace]
      rfl
    · simp only [MemoryPlace.address, Option.elim_some, Nat.add_zero, BitVec.toNat_add,
        BitVec.toNat_ofNat, Nat.add_mod_mod]
  | @deref base x v htarget hbase hv =>
    have hlt := harena target _ htarget base (by simp)
    refine ⟨_, ⟨.one (.get v), _, 0⟩, htarget, fun value keep => ?_, ?_, ?_,
      Place.realises_get state v _ 0⟩
    · simp only [assignWith, expr_eq_ok.mpr htarget, ok_bind]
    · simp only [targetPlaceWith, elementScalar_ident hbase hv, lower_ident hbase hv,
        ok_bind]
      rfl
    · rw [lower, descend_eq, ← lower]
      simp only [lowerStep, expr_eq_ok.mpr htarget, ok_bind, unaryWith,
        elementScalar_ident hbase hv, if_pos hlt, lower_ident hbase hv]
      rfl
  | @pointerMember base x name _ v _ layout s htarget hbase hv hname hstruct hmember hs =>
    have hplace : memberPlace sc base name = .ok ⟨.one (.get v), s, layout.offset⟩ := by
      have hmemberOf : sc.memberOf base name = .ok (v, layout) := by
        simp only [memberOf, expr_eq_ok.mpr hbase, hv, hname, hstruct, hmember, ok_bind]
        rfl
      simp only [memberPlace, hmemberOf, ok_bind, hs]
      rfl
    refine ⟨_, _, htarget, fun value keep => ?_, hplace, ?_, Place.realises_get state v s _⟩
    · simp only [assignWith, expr_eq_ok.mpr htarget, ok_bind]
    · rw [lower, descend_eq]
      simp only [lowerStep, expr_eq_ok.mpr htarget, ok_bind, member, hplace]
      rfl

end Places

/-! ## Writing, then reading -/

section Assignment

variable {sc : Scope} {env : Environment} {state : MachineState} {p : MemoryPlace} {place : Place}

theorem Scalar.lane_isFloat {s : Scalar} (hs : s ≠ .f32) : s.lane.isFloat = false := by
  cases s <;> first | rfl | exact absurd rfl hs

/-- Storing a word where a place says: short of a trap, it is written to the address of the
place. -/
theorem Lower.Place.Realises.execute_store (h : place.Realises env state p) {valueCode : Code}
    {w : Word} (hvalue : valueCode.Gives env state (.ok w)) (stack : List Word)
    (htrap : (place.address ++ valueCode ++ .one (.store place.scalar place.offset)).execute env
      stack state ≠ .error .trap) :
    (place.address ++ valueCode ++ .one (.store place.scalar place.offset)).execute env stack
        state = .ok (stack,
          { state with memory := state.memory.write (p.address state) p.scalar.size w.toNat }) ∧
      p.address state + p.scalar.size ≤ state.memory.size := by
  obtain ⟨base, haddress, hbase⟩ := h.address
  have hrun : (place.address ++ valueCode ++ .one (.store place.scalar place.offset)).execute env
      stack state = (state.memory.store p.scalar base p.offset w).map fun m =>
        (stack, { state with memory := m }) := by
    rw [Code.execute_append, Code.execute_append, hbase stack]
    show ((valueCode.execute env (base :: stack) state).bind _) = _
    rw [hvalue (base :: stack), h.scalar, h.offset]
    exact Code.execute_one env _ _ _
  rw [hrun] at htrap ⊢
  rw [Memory.store_eq] at htrap ⊢
  by_cases hholds : state.memory.holds p.scalar base p.offset = true
  · rw [if_pos hholds, haddress]
    exact ⟨rfl, by simpa [Memory.holds, haddress] using hholds⟩
  · rw [if_neg hholds] at htrap
    exact absurd rfl htrap

end Assignment

/-- A function with a parameter: `fn f(a: i8[]) { a[8] = 200 }`. -/
def notch : Module where
  name := "notch"
  items := [2]
  arena := {
    exprs := #[.ident "a", .int 8, .index 0 1, .int 200, .assign 2 3]
    stmts := #[
      .expr 4, .block [0], .function ⟨"f", [⟨"a", .array (.scalar .i8)⟩], .void, 1, false⟩] }

namespace notch

def a : Variable := ⟨"a", .param, .array (.scalar .i8)⟩

def scope : Scope where
  info := { name := "notch", data := { base := 16, cursor := 16 } }
  arena := notch.arena
  frame := some { name := "f", result := .void, params := ⟨[("a", a)]⟩ }

def place : MemoryPlace := ⟨a, some (.literal 8), .i8, 0⟩

def code : Code :=
  .ofList [.localGet "a", .intConst 8, .intBinary .add, .intConst 200, .store .i8 0]

/-- The array starts four bytes below the end of the address space. -/
def state : MachineState := ⟨fun _ => -4, ⟨65536, fun _ => 0⟩⟩

end notch

end WasmBackend
