import WasmBackend.Proofs.Data.Allocation

/-!
# Array literals in constant data

An element of a nested array literal is reached by a path of indices. In constant data the same path
leads from block to block (`DataBlock.Leads`): every index but the last selects the address of
another block, the last one selects the bytes of a constant. The walk that places literals makes the
two agree (`Module.extract_leads`).

Two things could come in between. A block holds the addresses of inner literals as they were when it
was stored, and a literal that is visited again moves: the old block stays, so old addresses remain
good. But a literal is laid out at the element type that is expected of it *at that visit*, so a
literal that stands in two places must be used at one element type (`Arena.Agrees`). Strings and
structs in arrays are left to `Data.Faithful`.
-/

namespace WasmBackend

open Compiled

/-! ## Paths through literals and through data -/

/-- The literal has this constant at the end of the path, and no literal on the way states a type.
The type is that of the literal. -/
inductive Arena.ElementAt (arena : Arena) (s : Scalar) (c : Constant) :
    Ty → ExprId → List Nat → Prop
  | constant {id : ExprId} (hid : Constant.ofExpr? arena id = some c) :
      ElementAt arena s c (.scalar s) id []
  | element {ty : Ty} {id e : ExprId} {elements : List ExprId} {i : Nat} {path : List Nat}
      (hid : arena.expr? id = some (.array elements none)) (he : elements[i]? = some e)
      (hrest : ElementAt arena s c ty e path) : ElementAt arena s c (.array ty) id (i :: path)

/-- Every array literal is used at one element type. -/
structure Arena.Agrees (arena : Arena) (elementOf : ExprId → Ty) : Prop where
  /-- The declared type of a variable fixes that of its initialiser. -/
  lets : ∀ id decl elementTy, arena.stmt? id = some (.letting decl) →
    decl.ty.bind Ty.element? = some elementTy → Placement.isArray arena decl.init = true →
    elementOf decl.init = elementTy
  /-- The type of a literal fixes that of the literals in it. -/
  nested : ∀ id elements stated inner, arena.expr? id = some (.array elements stated) →
    (stated.getD (elementOf id)).element? = some inner → ∀ e ∈ elements,
    Placement.isArray arena e = true → elementOf e = inner

namespace DataBlock

/-- The bytes have this part at this offset. -/
def HasAt (bytes : List UInt8) (offset : Nat) (part : List UInt8) : Prop :=
  (bytes.drop offset).take part.length = part

theorem HasAt.le_length {bytes part : List UInt8} {offset : Nat} (h : HasAt bytes offset part)
    (hpart : 0 < part.length) : offset + part.length ≤ bytes.length := by
  have hlength := congrArg List.length h
  simp only [List.length_take, List.length_drop] at hlength
  omega

/-- The path leads from the block at an address to a constant. The type is that of the elements of
the block. -/
inductive Leads (blocks : List DataBlock) (s : Scalar) (c : Constant) :
    Ty → List Nat → Nat → Prop
  | constant {i address : Nat} {bytes : List UInt8} (hblock : ⟨address, bytes⟩ ∈ blocks)
      (hpart : HasAt bytes (i * s.size) (c.encode s)) : Leads blocks s c (.scalar s) [i] address
  | inner {ty : Ty} {i address target : Nat} {path : List Nat} {bytes : List UInt8}
      (hblock : ⟨address, bytes⟩ ∈ blocks) (hpart : HasAt bytes (i * 4) (littleEndian 4 target))
      (hrest : Leads blocks s c ty path target) : Leads blocks s c (.array ty) (i :: path) address

theorem Leads.mono {blocks blocks' : List DataBlock} {s : Scalar} {c : Constant} {ty : Ty}
    {path : List Nat} {address : Nat} (h : Leads blocks s c ty path address)
    (hsub : blocks ⊆ blocks') : Leads blocks' s c ty path address := by
  induction h with
  | constant hblock hpart => exact .constant (hsub hblock) hpart
  | inner hblock hpart _ ih => exact .inner (hsub hblock) hpart ih

end DataBlock

theorem DataImage.Grows.subset {d d' : DataImage} (h : d.Grows d') :
    d.segments ⊆ d'.segments := by
  obtain ⟨added, hperm, -⟩ := h.segments
  intro b hb
  exact hperm.mem_iff.mpr (List.mem_append_left _ hb)

/-! ## Bytes of a literal -/

@[simp] theorem length_littleEndian (count n : Nat) : (littleEndian count n).length = count := by
  induction count generalizing n with
  | zero => rfl
  | succ count ih => simp [littleEndian, ih]

@[simp] theorem Constant.length_encode (c : Constant) (s : Scalar) :
    (c.encode s).length = s.size := by
  cases s <;> simp [encode, Scalar.size]

/-- Parts of one length stand at the multiples of it. -/
theorem DataBlock.hasAt_flatten {parts : List (List UInt8)} {size : Nat}
    (hlength : ∀ part ∈ parts, part.length = size) {i : Nat} {part : List UInt8}
    (hpart : parts[i]? = some part) : HasAt parts.flatten (i * size) part := by
  induction parts generalizing i with
  | nil => cases hpart
  | cons first rest ih =>
    have hfirst : first.length = size := hlength first List.mem_cons_self
    unfold HasAt
    rw [List.flatten_cons]
    cases i with
    | zero =>
      cases hpart
      simp
    | succ i =>
      have hoffset : (i + 1) * size = first.length + i * size := by
        rw [hfirst, Nat.succ_mul, Nat.add_comm]
      rw [hoffset, List.drop_length_add_append]
      exact ih (fun part h => hlength part (List.mem_cons_of_mem _ h)) hpart

namespace Placement

variable {arena : Arena} {literals : Table ExprId Nat} {ty : Ty} {s : Scalar} {id : ExprId}

theorem isArray_iff : isArray arena id = true ↔
    ∃ elements stated, arena.expr? id = some (.array elements stated) := by
  unfold isArray
  split
  · next elements stated h => exact ⟨fun _ => ⟨elements, stated, h⟩, fun _ => rfl⟩
  · next h =>
    constructor
    · intro hfalse
      cases hfalse
    · rintro ⟨elements, stated, hid⟩
      exact absurd hid (h elements stated)

theorem encodeElement_constant {c : Constant} (h : Constant.ofExpr? arena id = some c) :
    encodeElement arena literals ty s id = .ok (c.encode s) := by
  unfold encodeElement
  cases he : arena.expr? id with
  | none => simp [Constant.ofExpr?, he] at h
  | some e =>
    have hplain : e.isDataLiteral = false := by
      cases e <;> first | rfl | simp [Constant.ofExpr?, he] at h
    simp [hplain, h]

theorem encodeElement_array {elements : List ExprId} {stated : Option Ty} {address : Nat}
    (hid : arena.expr? id = some (.array elements stated))
    (haddress : literals.get? id = some address) :
    encodeElement arena literals (.array ty) .u32 id = .ok (littleEndian 4 address) := by
  simp [encodeElement, hid, Expr.isDataLiteral, haddress, Scalar.size, Ty.lane, Lane.isFloat]

theorem encodeElement_length {part : List UInt8}
    (h : encodeElement arena literals ty s id = .ok part) : part.length = s.size := by
  unfold encodeElement at h
  split at h
  · cases h
  · split at h
    · split at h
      · cases h
      · split at h
        · cases h
        · next hsize =>
          cases h
          rw [length_littleEndian]
          omega
    · split at h
      · cases h
        exact Constant.length_encode _ s
      · cases h

/-- The bytes of an array literal have those of each element where its index says. -/
theorem encodeArray_hasAt {elements : List ExprId} {bytes : List UInt8} {align i : Nat}
    {e : ExprId} (h : encodeArray arena literals ty elements = .ok (bytes, align))
    (he : elements[i]? = some e) :
    ∃ s part, ty.storage? = some s ∧ encodeElement arena literals ty s e = .ok part ∧
      DataBlock.HasAt bytes (i * s.size) part := by
  unfold encodeArray at h
  cases hs : ty.storage? with
  | none => simp [hs] at h
  | some s =>
    simp only [hs, bind_ok, pure_ok] at h
    obtain ⟨parts, hparts, h⟩ := h
    cases h
    have hparts := mapM_ok.mp hparts
    obtain ⟨hi, rfl⟩ := List.getElem?_eq_some_iff.mp he
    have hi' : i < parts.length := hparts.length_eq ▸ hi
    refine ⟨s, parts[i], rfl, hparts.get hi hi',
      DataBlock.hasAt_flatten ?_ (List.getElem?_eq_getElem hi')⟩
    intro part hpart
    obtain ⟨k, hk, rfl⟩ := List.mem_iff_getElem.mp hpart
    exact encodeElement_length (hparts.get (hparts.length_eq ▸ hk) hk)

/-- A literal leads where its elements lead. -/
theorem leads_of_encoded {blocks : List DataBlock} {elements : List ExprId} {stated : Option Ty}
    {bytes : List UInt8} {address align : Nat} (hblock : ⟨address, bytes⟩ ∈ blocks)
    (hid : arena.expr? id = some (.array elements stated))
    (hencode : encodeArray arena literals ty elements = .ok (bytes, align))
    (hinner : ∀ e ∈ elements, ∀ inner, ty = .array inner → isArray arena e = true →
      ∃ target, literals.get? e = some target ∧ ∀ s c path,
        arena.ElementAt s c (.array inner) e path → DataBlock.Leads blocks s c inner path target)
    {s : Scalar} {c : Constant} {path : List Nat}
    (h : arena.ElementAt s c (.array ty) id path) :
    DataBlock.Leads blocks s c ty path address := by
  cases h with
  | element hid' he hrest =>
    cases hid.symm.trans hid'
    obtain ⟨s', part, hs', hpart, hasAt⟩ := encodeArray_hasAt hencode he
    cases hrest with
    | constant hconstant =>
      cases hs'
      cases (encodeElement_constant hconstant).symm.trans hpart
      exact .constant hblock hasAt
    | element hinnerId he' hrest' =>
      cases hs'
      have harray := isArray_iff.mpr ⟨_, _, hinnerId⟩
      obtain ⟨target, htarget, hleads⟩ :=
        hinner _ (List.mem_of_getElem? he) _ rfl harray
      cases (encodeElement_array hinnerId htarget).symm.trans hpart
      exact .inner hblock hasAt (hleads s c _ (.element hinnerId he' hrest'))

end Placement

/-! ## Steps with a pre- and a postcondition -/

namespace PlaceM

variable {α β : Type} {P Q R : Placement → Prop}

/-- From a state with the first property, the step leads to one with the second, if anywhere. -/
def Ensures (P : Placement → Prop) (x : PlaceM α) (Q : Placement → Prop) : Prop :=
  ∀ p a p', x p = .ok (a, p') → P p → Q p'

namespace Ensures

theorem bind {x : PlaceM α} {k : α → PlaceM β} (hx : Ensures P x Q)
    (hk : ∀ a, Ensures Q (k a) R) : Ensures P (x >>= k) R := by
  intro p b p' h hp
  obtain ⟨a, q, hq, hp'⟩ := bind_ok.mp h
  exact hk a q b p' hp' (hx p a q hq hp)

theorem throw (e : CompileError) : Ensures P (MonadExcept.throw e : PlaceM α) Q := by
  intro p a p' h
  cases h

theorem forM_invariant {l : List α} {k : α → PlaceM Unit} (hk : ∀ a ∈ l, Ensures P (k a) P) :
    Ensures P (l.forM k) P := by
  induction l with
  | nil =>
    intro p a p' h hp
    cases h
    exact hp
  | cons a rest ih =>
    exact (hk a List.mem_cons_self).bind fun _ => ih fun b hb => hk b (List.mem_cons_of_mem _ hb)

/-- What one round of a loop brings about, the rounds after it keep. -/
theorem forM {l : List α} {k : α → PlaceM Unit} {a : α} (ha : a ∈ l)
    (hbefore : ∀ b ∈ l, Ensures P (k b) P) (hround : Ensures P (k a) Q)
    (hafter : ∀ b ∈ l, Ensures Q (k b) Q) : Ensures P (l.forM k) Q := by
  induction l with
  | nil => cases ha
  | cons first rest ih =>
    have hrest {b : α} (hb : b ∈ rest) : b ∈ first :: rest := List.mem_cons_of_mem _ hb
    rcases List.mem_cons.mp ha with rfl | ha
    · exact hround.bind fun _ => forM_invariant fun b hb => hafter b (hrest hb)
    · refine (hbefore first List.mem_cons_self).bind fun _ => ?_
      exact ih ha (fun b hb => hbefore b (hrest hb)) (fun b hb => hafter b (hrest hb))

end Ensures

end PlaceM

namespace Placement

variable {arena : Arena} {p p' : Placement} {id : ExprId}

theorem place_ok {bytes : List UInt8} {align : Nat} {a : Unit}
    (h : place id bytes align p = .ok (a, p')) :
    ∃ address, ⟨address, bytes⟩ ∈ p'.data.segments ∧ p'.literals = p.literals.set id address ∧
      p'.expected = p.expected := by
  obtain ⟨address, data, hblock, rfl⟩ := place_eq_ok h
  obtain ⟨-, rfl⟩ := DataImage.addBlock_ok hblock
  exact ⟨address, by simp [DataImage.segments], rfl, rfl⟩

theorem placeArray_ok {elements : List ExprId} {stated : Option Ty} {walk : PlaceM Unit} {a : Unit}
    (h : placeArray arena id elements stated walk p = .ok (a, p')) :
    ∃ ty q r bytes align, ty = arrayElementType arena stated (p.expected.get? id) elements ∧
      expectElements arena elements ty p = .ok ((), q) ∧ walk q = .ok ((), r) ∧
      encodeArray arena r.literals ty elements = .ok (bytes, align) ∧
      place id bytes align r = .ok (a, p') := by
  rw [placeArray_eq arena id elements stated walk p rfl] at h
  obtain ⟨⟨⟩, q, hexpect, h⟩ := PlaceM.bind_ok.mp h
  obtain ⟨⟨⟩, r, hwalk, h⟩ := PlaceM.bind_ok.mp h
  rw [PlaceM.get_bind] at h
  obtain ⟨⟨bytes, align⟩, _, hlift, h⟩ := PlaceM.bind_ok.mp h
  obtain ⟨hencode, rfl⟩ := PlaceM.lift_ok hlift
  exact ⟨_, q, r, bytes, align, rfl, hexpect, hwalk, hencode, h⟩

end Placement

end WasmBackend
