import Mathlib.Algebra.Group.Int.Defs
import WasmBackend.Proofs.Data.Recorded
import WasmBackend.Proofs.Memory.Blocks

/-!
# Literals and their images

`Arena.Stored` is what it means that a literal stands in data: a string as its header, a struct as
its members, an array as its elements one behind the other, where the slot of an inner literal holds
the address of a block that is an image of it in the same sense. The type at which an array is laid
out is its own annotation or what is passed down to it, and this goes on at every depth.

A survey finds these images along chains of matching types only. If every array literal is referred
to by one node only (`Module.Unshared`), what is passed down to it is determined
(`Module.Stands.unique`), and such a chain leads to every literal (`Module.Stands.linked`). Literals
that are shared are left out, since they may be laid out at the type that was meant elsewhere.
-/

namespace WasmBackend

open Compiled

/-- The blocks have an image of the literal at this address, if this type is passed down to it. -/
inductive Arena.Stored (arena : Arena) (structs : Table String StructLayout)
    (blocks : List DataBlock) : ExprId → Option Ty → Nat → Prop
  | str {id : ExprId} {passed : Option Ty} {address data : Nat} {content : String}
      (hid : arena.expr? id = some (.str content))
      (hheader : ⟨address, headerBytes content data⟩ ∈ blocks)
      (hdata : ⟨data, content.toUTF8.toList⟩ ∈ blocks) :
      Stored arena structs blocks id passed address
  | struct {id : ExprId} {passed : Option Ty} {address : Nat} {name : String}
      {inits : List FieldInit} {layout : StructLayout} {bytes : List UInt8}
      (hid : arena.expr? id = some (.struct name inits))
      (hlayout : structs.get? name = some layout) (hblock : ⟨address, bytes⟩ ∈ blocks)
      (hshows : layout.Shows arena inits bytes) : Stored arena structs blocks id passed address
  | array {id : ExprId} {passed stated : Option Ty} {address : Nat} {elements : List ExprId}
      {ty : Ty} {s : Scalar} {bytes : List UInt8} (target : Nat → Nat)
      (hid : arena.expr? id = some (.array elements stated))
      (hty : arrayElementType arena stated passed elements = ty) (hs : ty.storage? = some s)
      (hblock : ⟨address, bytes⟩ ∈ blocks) (hlength : bytes.length = elements.length * ty.size)
      (haligned : ty.size ∣ address)
      (hkinds : ∀ e ∈ elements, (Constant.ofExpr? arena e).isSome ∨ arena.IsLiteral e)
      (hconstant : ∀ i e c, elements[i]? = some e → Constant.ofExpr? arena e = some c →
        DataBlock.HasAt bytes (i * ty.size) (c.encode s))
      (hfits : ∀ e ∈ elements, arena.IsLiteral e → ty.size = 4 ∧ ty.lane.isFloat = false)
      (hliteral : ∀ i e, elements[i]? = some e → arena.IsLiteral e →
        DataBlock.HasAt bytes (i * ty.size) (littleEndian 4 (target i)))
      (hinner : ∀ i e, elements[i]? = some e → arena.IsLiteral e →
        Stored arena structs blocks e ty.element? (target i)) :
      Stored arena structs blocks id passed address

theorem Arena.Stored.mono {arena : Arena} {structs : Table String StructLayout}
    {blocks blocks' : List DataBlock} {id : ExprId} {passed : Option Ty} {address : Nat}
    (h : arena.Stored structs blocks id passed address) (hsub : blocks ⊆ blocks') :
    arena.Stored structs blocks' id passed address := by
  induction h with
  | str hid hheader hdata => exact .str hid (hsub hheader) (hsub hdata)
  | struct hid hlayout hblock hshows => exact .struct hid hlayout (hsub hblock) hshows
  | array target hid hty hs hblock hlength haligned hkinds hconstant hfits hliteral _ ih =>
    exact .array target hid hty hs (hsub hblock) hlength haligned hkinds hconstant hfits hliteral ih

/-! ## Sharing -/

namespace Module

variable {m : Module}

/-- The node stands in the module, and the expression stands directly in it. -/
def Refers (m : Module) : NodeParent → ExprId → Prop
  | .item, _ => False
  | .stmt id, e => m.Contains id ∧ ∃ s, m.arena.stmt? id = some s ∧ e ∈ s.exprChildren
  | .expr id, e => m.Reaches id ∧ ∃ parent, m.arena.expr? id = some parent ∧ e ∈ parent.children

/-- No array literal is referred to by two nodes. -/
def Unshared (m : Module) : Prop :=
  ∀ id parent parent', Placement.isArray m.arena id = true → m.Refers parent id →
    m.Refers parent' id → parent = parent'

end Module

/-- The nodes of the arena in which the expression stands directly. -/
def Arena.parents (arena : Arena) (id : ExprId) : List NodeParent :=
  ((List.range arena.stmts.size).filter fun k =>
      (arena.stmt? k).any fun s => id ∈ s.exprChildren).map .stmt ++
    ((List.range arena.exprs.size).filter fun k =>
      (arena.expr? k).any fun e => id ∈ e.children).map .expr

namespace Module

variable {m : Module}

theorem Refers.mem_parents {parent : NodeParent} {id : ExprId} (h : m.Refers parent id) :
    parent ∈ m.arena.parents id := by
  cases parent with
  | item => exact h.elim
  | stmt k | expr k =>
    obtain ⟨-, node, hnode, hid⟩ := h
    obtain ⟨hk, -⟩ := Array.getElem?_eq_some_iff.mp hnode
    simp [Arena.parents, hnode, hid, hk, -Expr.children, -Stmt.exprChildren]

/-- Sharing can be ruled out without knowing what the module reaches. -/
theorem unshared_of_parents (h : ∀ id < m.arena.exprs.size,
    Placement.isArray m.arena id = true → (m.arena.parents id).length ≤ 1) : m.Unshared := by
  intro id parent parent' harray hparent hparent'
  obtain ⟨elements, stated, hid⟩ := Placement.isArray_iff.mp harray
  obtain ⟨hlt, -⟩ := Array.getElem?_eq_some_iff.mp hid
  obtain ⟨i, hi, rfl⟩ := List.getElem_of_mem hparent.mem_parents
  obtain ⟨j, hj, rfl⟩ := List.getElem_of_mem hparent'.mem_parents
  have hone := h id hlt harray
  obtain rfl : i = j := by omega
  rfl

/-- Without sharing, it is determined what is passed down to an array literal. -/
theorem Stands.unique (hm : m.Unshared) {id : ExprId} {passed passed' : Option Ty}
    (h : m.Stands id passed) (h' : m.Stands id passed')
    (harray : Placement.isArray m.arena id = true) : passed = passed' := by
  induction h generalizing passed' with
  | @root sid s e hcontains hid he =>
    have hrefers : m.Refers (.stmt sid) e := ⟨hcontains, s, hid, he⟩
    -- An array literal is referred to in one place only, so both derivations come from there.
    cases h' with
    | root hcontains' hid' he' =>
      cases hm e _ (.stmt _) harray hrefers ⟨hcontains', _, hid', he'⟩
      cases hid.symm.trans hid'
      rfl
    | child hstands' hid' hchild' =>
      cases hm e _ (.expr _) harray hrefers ⟨⟨_, hstands'⟩, _, hid', hchild'⟩
  | @child parent child e passed hstands hid hchild ih =>
    have hrefers : m.Refers (.expr parent) child := ⟨⟨_, hstands⟩, e, hid, hchild⟩
    cases h' with
    | root hcontains' hid' he' =>
      cases hm child _ (.stmt _) harray hrefers ⟨hcontains', _, hid', he'⟩
    | child hstands' hid' hchild' =>
      cases hm child _ (.expr _) harray hrefers ⟨⟨_, hstands'⟩, _, hid', hchild'⟩
      cases hid.symm.trans hid'
      cases e with
      -- Only arrays hand a type on, which rests on the one that they were handed themselves.
      | array elements stated =>
        rw [ih hstands' (Placement.isArray_iff.mpr ⟨_, _, hid⟩)]
      | _ => rfl

end Module

/-! ## Encoding -/

namespace Placement

variable {arena : Arena} {literals : Table ExprId Nat} {ty : Ty} {s : Scalar} {id : ExprId}

/-- An element is a constant, or a literal that is a word and has a place. -/
theorem encodeElement_cases {part : List UInt8}
    (h : encodeElement arena literals ty s id = .ok part) :
    (¬ arena.IsLiteral id ∧ ∃ c, Constant.ofExpr? arena id = some c ∧ part = c.encode s) ∨
      arena.IsLiteral id ∧ s.size = 4 ∧ ty.lane.isFloat = false ∧
        ∃ address, literals.get? id = some address ∧ part = littleEndian 4 address := by
  unfold encodeElement at h
  split at h
  · cases h
  · next e he =>
    split at h
    · next hliteral =>
      split at h
      · cases h
      · next address haddress =>
        split at h
        · cases h
        · next hword =>
          cases h
          simp only [not_or, Decidable.not_not, Bool.not_eq_true] at hword
          exact .inr ⟨⟨e, he, hliteral⟩, hword.1, hword.2, address, haddress, rfl⟩
    · next hplain =>
      have hnot : ¬ arena.IsLiteral id := by
        rintro ⟨e', he', hliteral⟩
        cases he.symm.trans he'
        exact hplain hliteral
      split at h
      · next c hc =>
        cases h
        exact .inl ⟨hnot, c, hc, rfl⟩
      · cases h

/-- The bytes of an array literal are those of its elements, of one size each. -/
theorem encodeArray_ok {elements : List ExprId} {bytes : List UInt8} {align : Nat}
    (h : encodeArray arena literals ty elements = .ok (bytes, align)) :
    ∃ s, ty.storage? = some s ∧ align = ty.size ∧ bytes.length = elements.length * ty.size := by
  unfold encodeArray at h
  cases hs : ty.storage? with
  | none => simp [hs] at h
  | some s =>
    simp only [hs, bind_ok, pure_ok] at h
    obtain ⟨parts, hparts, h⟩ := h
    cases h
    rw [← Ty.storage?_size hs]
    refine ⟨s, rfl, by cases s <;> rfl, ?_⟩
    have hencoded := mapM_ok.mp hparts
    clear hparts
    induction hencoded with
    | nil => simp
    | cons hpart _ ih =>
      rw [List.flatten_cons, List.length_append, encodeElement_length hpart, ih, List.length_cons,
        Nat.succ_mul, Nat.add_comm]

theorem encodeArray_element {elements : List ExprId} {bytes : List UInt8} {align i : Nat}
    {e : ExprId} (hs : ty.storage? = some s)
    (h : encodeArray arena literals ty elements = .ok (bytes, align)) (he : elements[i]? = some e) :
    ∃ part, encodeElement arena literals ty s e = .ok part ∧
      DataBlock.HasAt bytes (i * ty.size) part := by
  obtain ⟨s', part, hs', hpart, hasAt⟩ := encodeArray_hasAt h he
  cases hs.symm.trans hs'
  rw [Ty.storage?_size hs] at hasAt
  exact ⟨part, hpart, hasAt⟩

/-- An array literal is an image of itself once its elements are. -/
theorem stored_of_encoded {structs : Table String StructLayout} {blocks : List DataBlock}
    {elements : List ExprId} {stated passed : Option Ty} {bytes : List UInt8} {address align : Nat}
    (hid : arena.expr? id = some (.array elements stated))
    (hty : arrayElementType arena stated passed elements = ty)
    (hencode : encodeArray arena literals ty elements = .ok (bytes, align))
    (hblock : ⟨address, bytes⟩ ∈ blocks) (haligned : align ∣ address)
    (hinner : ∀ e ∈ elements, arena.IsLiteral e → ∀ target, literals.get? e = some target →
      arena.Stored structs blocks e ty.element? target) :
    arena.Stored structs blocks id passed address := by
  obtain ⟨s, hs, rfl, hlength⟩ := encodeArray_ok hencode
  have hcases {i : Nat} {e : ExprId} (he : elements[i]? = some e) :=
    encodeArray_element hs hencode he
  -- An inner literal is where it was when its address was written.
  let target (i : Nat) : Nat := (elements[i]?.bind fun e => literals.get? e).getD 0
  have htarget {i : Nat} {e : ExprId} {place : Nat} (he : elements[i]? = some e)
      (hplace : literals.get? e = some place) : target i = place := by
    simp [target, he, hplace]
  refine .array target hid hty hs hblock hlength haligned ?_ ?_ ?_ ?_ ?_
  · intro e he
    obtain ⟨i, hi⟩ := List.mem_iff_getElem?.mp he
    obtain ⟨part, hpart, -⟩ := hcases hi
    rcases encodeElement_cases hpart with ⟨-, c, hc, -⟩ | ⟨hliteral, -⟩
    · exact .inl (by rw [hc]; rfl)
    · exact .inr hliteral
  · intro i e c he hc
    obtain ⟨part, hpart, hasAt⟩ := hcases he
    cases (encodeElement_constant hc).symm.trans hpart
    exact hasAt
  · intro e he hliteral
    obtain ⟨i, hi⟩ := List.mem_iff_getElem?.mp he
    obtain ⟨part, hpart, -⟩ := hcases hi
    rcases encodeElement_cases hpart with ⟨hnot, -⟩ | ⟨-, hsize, hlane, -⟩
    · exact absurd hliteral hnot
    · exact ⟨(Ty.storage?_size hs).symm.trans hsize, hlane⟩
  · intro i e he hliteral
    obtain ⟨part, hpart, hasAt⟩ := hcases he
    rcases encodeElement_cases hpart with ⟨hnot, -⟩ | ⟨-, -, -, place, hplace, rfl⟩
    · exact absurd hliteral hnot
    · rw [htarget he hplace]
      exact hasAt
  · intro i e he hliteral
    obtain ⟨part, hpart, -⟩ := hcases he
    rcases encodeElement_cases hpart with ⟨hnot, -⟩ | ⟨-, -, -, place, hplace, -⟩
    · exact absurd hliteral hnot
    · rw [htarget he hplace]
      exact hinner e (List.mem_of_getElem? he) hliteral place hplace

end Placement

/-! ## The walk -/

namespace Module

variable {m : Module}

open Classical in
/-- What is passed down to an expression, wherever something is. -/
noncomputable def passedDown (m : Module) (id : ExprId) : Option Ty :=
  if h : ∃ ty, m.Stands id (some ty) then some h.choose else none

theorem Stands.passedDown (hm : m.Unshared) {id : ExprId} {passed : Option Ty}
    (h : m.Stands id passed) (harray : Placement.isArray m.arena id = true) :
    m.passedDown id = passed := by
  unfold Module.passedDown
  split
  · next hex => exact hex.choose_spec.unique hm h harray
  · next hnone =>
    cases passed with
    | none => rfl
    | some ty => exact absurd ⟨ty, h⟩ hnone

end Module

/-- The survey that asks for images of literals. -/
noncomputable def Survey.images (m : Module) (structs : Table String StructLayout) : Survey where
  typed := True
  told := m.passedDown
  image blocks id address := ∀ passed, (Placement.isArray m.arena id = true →
    passed = m.passedDown id) → m.arena.Stored structs blocks id passed address

theorem Survey.images_sound {m : Module} (hm : m.Unshared) {structs : Table String StructLayout}
    (hstructs : ∀ name layout, structs.get? name = some layout →
      ∃ declared fields exported, StructLayout.ofFields declared fields exported = .ok layout) :
    (images m structs).Sound m structs where
  told id ty _ harray hstands := hstands.passedDown hm harray
  mono _ _ _ _ hsub h passed hpassed := (h passed hpassed).mono hsub
  str _ _ _ _ _ hid hheader hdata _ _ := .str hid hheader hdata
  struct blocks id name fields bytes address hid hencode hblock _ _ := by
    unfold Placement.encodeStruct at hencode
    split at hencode
    · cases hencode
    · next layout hlayout =>
      obtain ⟨declared, fields, exported, hfields⟩ := hstructs name layout hlayout
      exact .struct hid hlayout hblock (StructLayout.shows_of_encoded hfields hencode)
  array blocks literals id elements stated ty bytes align address hreach hid hty hencode hblock
      haligned hinner passed hpassed := by
    have harray : Placement.isArray m.arena id = true := Placement.isArray_iff.mpr ⟨_, _, hid⟩
    obtain ⟨_, hstands⟩ := hreach
    rw [← hstands.passedDown hm harray, ← hpassed harray] at hstands
    have hown : arrayElementType m.arena stated passed elements = ty := by
      rw [hty trivial, hpassed harray]
      rfl
    refine Placement.stored_of_encoded hid hown hencode hblock haligned ?_
    intro e he hliteral target htarget
    -- An inner array is told the element type of its own elements.
    have htold (harray : Placement.isArray m.arena e = true) : m.passedDown e = ty.element? := by
      rw [(hstands.child hid he).passedDown hm harray, Expr.passes, hown]
    obtain ⟨target', htarget', hstored⟩ := hinner e he hliteral fun _ => htold
    cases htarget.symm.trans htarget'
    exact hstored _ fun harray => (htold harray).symm

/-- Without sharing, everything that stands in the module is linked to a statement of it. -/
theorem Module.Stands.linked {m : Module} (hm : m.Unshared) {structs : Table String StructLayout}
    {id : ExprId} {passed : Option Ty} (h : m.Stands id passed) :
    ∃ sid s root, m.Contains sid ∧ m.arena.stmt? sid = some s ∧ root ∈ s.exprChildren ∧
      (Placement.isArray m.arena root = true → m.passedDown root = s.passes) ∧
      (Survey.images m structs).Linked m.arena id root := by
  induction h with
  | root hcontains hid he =>
    exact ⟨_, _, _, hcontains, hid, he, (Module.Stands.root hcontains hid he).passedDown hm, .self⟩
  | @child id child e passed hstands hid hchild ih =>
    obtain ⟨sid, s, root, hcontains, hs, hroot, htold, hlinked⟩ := ih
    refine ⟨sid, s, root, hcontains, hs, hroot, htold, Survey.Linked.trans ?_ hlinked⟩
    refine .child hid hchild (fun _ harray => ?_) .self
    refine ((hstands.child hid hchild).passedDown hm harray).trans ?_
    dsimp only [Survey.images]
    cases e with
    | array elements stated => rw [hstands.passedDown hm (Placement.isArray_iff.mpr ⟨_, _, hid⟩)]
    | _ => rfl

/-- Without sharing, every literal that stands in the module is stored where it is recorded. -/
theorem Module.extract_stored {m : Module} {base : Nat} {info : ModuleInfo} (hm : m.Unshared)
    (h : m.extract base = .ok info) {id : ExprId} {passed : Option Ty}
    (hstands : m.Stands id passed) (hliteral : m.arena.IsLiteral id) :
    ∃ address, info.literals.get? id = some address ∧
      m.arena.Stored info.structs info.data.segments id passed address := by
  have hstructs (name : String) (layout : StructLayout)
      (hlayout : info.structs.get? name = some layout) :
      ∃ declared fields exported, StructLayout.ofFields declared fields exported = .ok layout := by
    obtain ⟨decl, -, hadds⟩ :=
      exists_of_forall₂_right (extract_records h).structs (Table.mem_of_get? hlayout)
    exact ⟨_, _, _, hadds.2⟩
  obtain ⟨sid, s, root, hcontains, hs, hroot, htold, hlinked⟩ := hstands.linked hm
  obtain ⟨address, haddress, hstored⟩ := extract_settled (Survey.images_sound hm hstructs) h
    hcontains hs hroot (fun _ => htold) hlinked hliteral
  exact ⟨address, haddress, hstored passed fun harray => (hstands.passedDown hm harray).symm⟩

/-! ## Reading bytes -/

/-- The number that bytes stand for, the lowest of them first. -/
def readLittleEndian (bytes : List UInt8) : Nat :=
  bytes.foldr (fun b high => b.toNat + 256 * high) 0

theorem readLittleEndian_littleEndian (count n : Nat) :
    readLittleEndian (littleEndian count n) = n % 256 ^ count := by
  induction count generalizing n with
  | zero => exact (Nat.mod_one n).symm
  | succ count ih =>
    have hlow : (UInt8.ofNat (n % 256)).toNat = n % 256 :=
      UInt8.toNat_ofNat_of_lt (Nat.mod_lt _ (by decide))
    calc readLittleEndian (littleEndian (count + 1) n)
        = (UInt8.ofNat (n % 256)).toNat +
          256 * readLittleEndian (littleEndian count (n / 256)) := rfl
      _ = n % 256 + 256 * (n / 256 % 256 ^ count) := by rw [hlow, ih]
      _ = n % 256 ^ (count + 1) := by rw [Nat.pow_succ', Nat.mod_mul]

namespace Constant

/-- An integer is wrapped to the width of the slot. -/
theorem read_encode_int {s : Scalar} (hs : s ≠ .f32) (value : Int64) :
    (readLittleEndian ((int value).encode s) : Int) = value.toInt % 256 ^ s.size := by
  have hdvd : (256 ^ s.size : Int) ∣ 2 ^ 64 := by cases s <;> decide
  have hword : value.toInt = (value.toUInt64.toNat : Int).bmod (2 ^ 64) :=
    BitVec.toInt_eq_toNat_bmod _
  rw [encode_of_ne_f32 hs, readLittleEndian_littleEndian, hword]
  calc ((value.toUInt64.toNat % 256 ^ s.size : Nat) : Int)
      = (value.toUInt64.toNat : Int) % 256 ^ s.size := by
        rw [Int.natCast_emod, Int.natCast_pow]
        rfl
    _ = (value.toUInt64.toNat : Int) % (2 ^ 64 : Nat) % 256 ^ s.size :=
      (Int.emod_emod_of_dvd _ hdvd).symm
    _ = (value.toUInt64.toNat : Int).bmod (2 ^ 64) % (2 ^ 64 : Nat) % 256 ^ s.size := by
      rw [Int.bmod_emod]
    _ = (value.toUInt64.toNat : Int).bmod (2 ^ 64) % 256 ^ s.size := Int.emod_emod_of_dvd _ hdvd

/-- A float slot holds the bits of the nearest number of its format. -/
theorem read_encode_f32 (c : Constant) :
    readLittleEndian (c.encode .f32) = c.toBinary64.toBinary32.bits.toNat := by
  rw [encode, readLittleEndian_littleEndian]
  exact Nat.mod_eq_of_lt c.toBinary64.toBinary32.bits.toNat_lt

end Constant

/-- If no array literal is shared, extraction stores every one of them as its elements one behind
the other, at the element type in force and at every depth. A literal with an element that has no
such image makes it fail. An integer in a slot is wrapped to its width. -/
theorem array_literals_stored (m : Module) (hm : m.Unshared) (base : Nat) :
    (∀ info, m.extract base = .ok info →
      (∀ block ∈ info.data.segments, block.stop < addressSpace) ∧
      ∀ id passed elements stated, m.Stands id passed →
        m.arena.expr? id = some (.array elements stated) →
        ∃ address, info.literals.get? id = some address ∧
          m.arena.Stored info.structs info.data.segments id passed address) ∧
    (∀ id passed elements stated, m.Stands id passed →
      m.arena.expr? id = some (.array elements stated) →
      (∃ e ∈ elements, (Constant.ofExpr? m.arena e = none ∧ ¬ m.arena.IsLiteral e) ∨
        m.arena.IsLiteral e ∧
          ((arrayElementType m.arena stated passed elements).lane.isFloat = true ∨
            (arrayElementType m.arena stated passed elements).size ≠ 4)) →
      ∃ e, m.extract base = .error e) ∧
    (∀ s value, s ≠ .f32 →
      (readLittleEndian ((Constant.int value).encode s) : Int) = value.toInt % 256 ^ s.size) ∧
    ∀ c : Constant, readLittleEndian (c.encode .f32) = c.toBinary64.toBinary32.bits.toNat := by
  refine ⟨fun info h => ⟨(Module.extract_data h).laid.limit, ?_⟩, ?_,
    fun s value hs => Constant.read_encode_int hs value, Constant.read_encode_f32⟩
  · intro id passed elements stated hstands hid
    exact Module.extract_stored hm h hstands ⟨_, hid, rfl⟩
  · rintro id passed elements stated hstands hid ⟨e, he, hbad⟩
    cases h : m.extract base with
    | error err => exact ⟨err, rfl⟩
    | ok info =>
      -- Had extraction succeeded, there would be an image, and so one of this element.
      obtain ⟨address, -, hstored⟩ := Module.extract_stored hm h hstands ⟨_, hid, rfl⟩
      cases hstored with
      | str hid' | struct hid' => cases hid.symm.trans hid'
      | array target hid' hty hs hblock hlength haligned hkinds hconstant hfits =>
        cases hid.symm.trans hid'
        rw [hty] at hbad
        rcases hbad with ⟨hnone, hplain⟩ | ⟨hliteral, hslot⟩
        · rcases hkinds e he with hsome | hliteral
          · rw [hnone] at hsome
            cases hsome
          · exact absurd hliteral hplain
        · obtain ⟨hsize, hlane⟩ := hfits e he hliteral
          rcases hslot with hfloat | hother
          · rw [hlane] at hfloat
            cases hfloat
          · exact absurd hsize hother

/-- `let rows: u8[][] = [[1, 300], [-1]]; let notes = ["é", Mark { tag: 7 }, [2.5]];` -/
def atlas : Module where
  name := "atlas"
  items := [0, 1, 2]
  arena := {
    exprs := #[.int 1, .int 300, .array [0, 1] none, .int 1, .unary .neg 3, .array [4] none,
      .array [2, 5] none, .str "é", .int 7, .struct "Mark" [⟨"tag", 8⟩],
      .float ⟨0x4004000000000000⟩, .array [10] none, .array [7, 9, 11] none]
    stmts := #[
      .struct ⟨"Mark", [⟨"tag", .scalar .u8⟩], false⟩,
      .letting ⟨"rows", some (.array (.array (.scalar .u8))), 6, false⟩,
      .letting ⟨"notes", none, 12, false⟩] }

namespace atlas

def info : ModuleInfo where
  name := "atlas"
  structs := ⟨[("Mark", ⟨"Mark", 1, false, ⟨[("tag", ⟨0, 1, .scalar .u8⟩)]⟩⟩)]⟩
  globals := ⟨[("rows", ⟨.array (.array (.scalar .u8)), .memory 20, false, 6⟩),
    ("notes", ⟨.array .i32, .memory 48, false, 12⟩)]⟩
  data := {
    base := 17
    cursor := 60
    interned := ⟨[("é", 28)]⟩
    headers := ⟨[("é", 32)]⟩
    strings := [⟨28, [195, 169]⟩]
    blocks := [⟨17, [1, 44]⟩, ⟨19, [255]⟩, ⟨20, [17, 0, 0, 0, 19, 0, 0, 0]⟩,
      ⟨32, [2, 0, 0, 0, 28, 0, 0, 0]⟩, ⟨40, [7]⟩, ⟨44, [0, 0, 32, 64]⟩,
      ⟨48, [32, 0, 0, 0, 40, 0, 0, 0, 44, 0, 0, 0]⟩] }
  literals := ⟨[(2, 17), (5, 19), (6, 20), (7, 32), (9, 40), (11, 44), (12, 48)]⟩

theorem extract_eq : atlas.extract 17 = .ok info := by decide +kernel

theorem unshared : atlas.Unshared := Module.unshared_of_parents (by decide +kernel)

theorem stands_rows : atlas.Stands 6 (some (.array (.scalar .u8))) := by
  have hlet : atlas.arena.stmt? 1 =
    some (.letting ⟨"rows", some (.array (.array (.scalar .u8))), 6, false⟩) := rfl
  exact .root (.item (by decide)) hlet (by decide)

theorem stands_notes : atlas.Stands 12 none := by
  have hlet : atlas.arena.stmt? 2 = some (.letting ⟨"notes", none, 12, false⟩) := rfl
  exact .root (.item (by decide)) hlet (by decide)

end atlas

/-- The text does not fit into the elements of `let torn: u16[] = ["a"];`. -/
def torn : Module where
  name := "torn"
  items := [0]
  arena := {
    exprs := #[.str "a", .array [0] none]
    stmts := #[.letting ⟨"torn", some (.array (.scalar .u16)), 1, false⟩] }

/-- Rows of bytes, and a list of a text, a struct and a row of floats. -/
theorem atlas_stored : atlas.Unshared ∧ atlas.extract 17 = .ok atlas.info ∧
    atlas.arena.Stored atlas.info.structs atlas.info.data.segments 6
      (some (.array (.scalar .u8))) 20 ∧
    atlas.arena.Stored atlas.info.structs atlas.info.data.segments 12 none 48 ∧
    torn.Unshared ∧ ∃ e, torn.extract 17 = .error e := by
  obtain ⟨-, hstored⟩ := (array_literals_stored atlas atlas.unshared 17).1 _ atlas.extract_eq
  obtain ⟨_, hrows, hrowsStored⟩ := hstored 6 _ [2, 5] none atlas.stands_rows rfl
  obtain ⟨_, hnotes, hnotesStored⟩ := hstored 12 _ [7, 9, 11] none atlas.stands_notes rfl
  cases hrows
  cases hnotes
  have htorn : torn.Unshared := Module.unshared_of_parents (by decide +kernel)
  have hlet : torn.arena.stmt? 0 =
    some (.letting ⟨"torn", some (.array (.scalar .u16)), 1, false⟩) := rfl
  have hstands : torn.Stands 1 (some (.scalar .u16)) :=
    .root (.item (by decide)) hlet (by decide)
  refine ⟨atlas.unshared, atlas.extract_eq, hrowsStored, hnotesStored, htorn, ?_⟩
  exact (array_literals_stored torn htorn 17).2.1 1 _ [0] none hstands rfl
    ⟨0, by decide, .inr ⟨⟨.str "a", rfl, rfl⟩, .inr (by decide)⟩⟩

end WasmBackend
