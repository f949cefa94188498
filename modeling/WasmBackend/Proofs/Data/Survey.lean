import WasmBackend.Proofs.Data.Requests
import WasmBackend.Proofs.Data.StructLiterals

/-!
# What the walk leaves at the place of a literal

The walk that places literals is looked at once, for everything that is to be known about places. A
`Survey` says what there is to be at the place of a literal, its *image*, and has to show that the
image of an array follows from those of its elements (`Survey.Sound`). Then the image is there for
every literal that the walk comes to in the right way (`Module.extract_settled`).

The right way is a matter of types. An array literal is laid out at the element type that was
announced of it last, and an announcement is never taken back: so a literal that stands in two
places may be laid out at the type that was meant for the other one. A survey that is *typed* tells
for each array which type it is to have, and speaks only of literals to which a chain of matching
types leads (`Survey.Linked`). An old image stays good when its literal is placed again, since
blocks are only added.

What is not said here is that a literal has one place only: it moves with every visit.
-/

namespace WasmBackend

open Compiled

/-- The expression is a literal in data. -/
def Arena.IsLiteral (arena : Arena) (id : ExprId) : Prop :=
  ∃ e, arena.expr? id = some e ∧ e.isDataLiteral = true

/-- There are no literals in a number. -/
theorem Arena.Numeral.within_plain {arena : Arena} {id target : ExprId} {c : Constant} {e : Expr}
    (h : arena.Numeral id c) (hwithin : arena.Within target id)
    (htarget : arena.expr? target = some e) : e.isDataLiteral = false := by
  have hleaf {id target : ExprId} {lit e : Expr} (hid : arena.expr? id = some lit)
      (hchildren : lit.children = []) (hplain : lit.isDataLiteral = false)
      (hwithin : arena.Within target id) (htarget : arena.expr? target = some e) :
      e.isDataLiteral = false := by
    cases hwithin with
    | refl =>
      cases hid.symm.trans htarget
      exact hplain
    | operand hid' hchild =>
      cases hid.symm.trans hid'
      rw [hchildren] at hchild
      cases hchild
  have hneg {operand : ExprId} {lit : Expr} (hid : arena.expr? id = some (.unary .neg operand))
      (hoperand : arena.expr? operand = some lit) (hchildren : lit.children = [])
      (hplain : lit.isDataLiteral = false) : e.isDataLiteral = false := by
    cases hwithin with
    | refl =>
      cases hid.symm.trans htarget
      rfl
    | operand hid' hchild hinner =>
      cases hid.symm.trans hid'
      cases List.mem_singleton.mp hchild
      exact hleaf hoperand hchildren hplain hinner htarget
  cases h with
  | int hid | float hid | char hid => exact hleaf hid rfl rfl hwithin htarget
  | negInt hid hoperand | negFloat hid hoperand => exact hneg hid hoperand rfl rfl

/-! ## Images with something in them -/

namespace DataImage

variable {base address : Nat} {d d' : DataImage}

/-- Nothing has been stored yet, or all went well. -/
def Begun (base : Nat) (d : DataImage) : Prop := d = .startingAt base ∨ d.Consistent base

theorem Begun.addBlock {bytes : List UInt8} {align : Nat} (h : d.Begun base)
    (hd : d.addBlock bytes align = .ok (address, d')) : d'.Consistent base := by
  rcases h with rfl | h
  · obtain ⟨htakes, -⟩ := addBlock_ok hd
    have hbase : base ≤ address := htakes.behind
    have hlimit := htakes.limit
    exact (Consistent.startingAt (by omega)).addBlock hd
  · exact h.addBlock hd

theorem Begun.header {content : String} (h : d.Begun base)
    (hd : d.header content = .ok (address, d')) : d'.Consistent base := by
  rcases h with rfl | h
  · rcases header_ok hd with ⟨hknown, -⟩ | ⟨-, data, stored, headed, hintern, -, -⟩
    · cases hknown
    · rcases intern_ok hintern with ⟨hknown, -⟩ | ⟨-, htakes, -⟩
      · cases hknown
      · have hbase : base ≤ data := htakes.behind
        have hlimit := htakes.limit
        exact (Consistent.startingAt (by omega)).header hd
  · exact h.header hd

theorem headers_of_header {content : String} (hd : d.header content = .ok (address, d')) :
    d'.headers.get? content = some address := by
  rcases header_ok hd with ⟨hknown, rfl⟩ | ⟨-, data, stored, headed, -, -, rfl⟩
  · exact hknown
  · rw [Table.get?_set, if_pos rfl]

end DataImage

/-! ## Surveys -/

open Placement (isArray encodeArray encodeStruct)

/-- What is to be shown of the places of literals. -/
structure Survey where
  /-- Does it matter at which type an array is laid out? -/
  typed : Prop
  /-- What is to be passed down to an array. -/
  told : ExprId → Option Ty
  image : List DataBlock → ExprId → Nat → Prop

namespace Survey

/-- The survey tells every array what may be passed down to it, and its images arise from what the
walk stores. -/
structure Sound (v : Survey) (m : Module) (structs : Table String StructLayout) : Prop where
  told : ∀ id ty, v.typed → isArray m.arena id = true → m.Stands id (some ty) → v.told id = some ty
  mono : ∀ blocks blocks' id address, blocks ⊆ blocks' → v.image blocks id address →
    v.image blocks' id address
  str : ∀ blocks id content address data, m.arena.expr? id = some (.str content) →
    ⟨address, headerBytes content data⟩ ∈ blocks → ⟨data, content.toUTF8.toList⟩ ∈ blocks →
    v.image blocks id address
  struct : ∀ blocks id name fields bytes address, m.arena.expr? id = some (.struct name fields) →
    encodeStruct m.arena structs name fields = .ok bytes → ⟨address, bytes⟩ ∈ blocks →
    v.image blocks id address
  array : ∀ blocks literals id elements stated ty bytes align address, m.Reaches id →
    m.arena.expr? id = some (.array elements stated) →
    (v.typed → ty = arrayElementType m.arena stated (v.told id) elements) →
    encodeArray m.arena literals ty elements = .ok (bytes, align) → ⟨address, bytes⟩ ∈ blocks →
    align ∣ address →
    (∀ e ∈ elements, m.arena.IsLiteral e →
      (v.typed → isArray m.arena e = true → v.told e = ty.element?) →
      ∃ target, literals.get? e = some target ∧ v.image blocks e target) →
    v.image blocks id address

/-- The first expression is the second or stands in it, and every array on the way is told what is
passed down to it. -/
inductive Linked (v : Survey) (arena : Arena) (target : ExprId) : ExprId → Prop
  | self : Linked v arena target target
  | child {id child : ExprId} {e : Expr} (hid : arena.expr? id = some e)
      (hchild : child ∈ e.children)
      (htold : v.typed → isArray arena child = true → v.told child = e.passes arena (v.told id))
      (hlinked : Linked v arena target child) : Linked v arena target id

namespace Linked

variable {v : Survey} {arena : Arena} {target middle id : ExprId}

theorem within (h : v.Linked arena target id) : arena.Within target id := by
  induction h with
  | self => exact .refl
  | child hid hchild _ _ ih => exact .operand hid hchild ih

theorem trans (h : v.Linked arena target middle) (h' : v.Linked arena middle id) :
    v.Linked arena target id := by
  induction h' with
  | self => exact h
  | child hid hchild htold _ ih => exact .child hid hchild htold ih

end Linked

end Survey

/-! ## The walk -/

namespace Placement

open PlaceM (Along Ensures)

/-- Whatever has been announced of an array is passed down to it somewhere. -/
structure Good (m : Module) (base : Nat) (p : Placement) : Prop where
  begun : p.data.Begun base
  announced : ∀ id ty, isArray m.arena id = true → p.expected.get? id = some ty →
    m.Stands id (some ty)

section States

variable (v : Survey) (m : Module) (base : Nat)

/-- What the literal is told has been announced. -/
def Ready (id : ExprId) (p : Placement) : Prop :=
  v.typed → isArray m.arena id = true → p.expected.get? id = v.told id

/-- The literal has its image. It may be placed again, so what was announced still matters. -/
structure Settled (id : ExprId) (p : Placement) : Prop where
  ready : Ready v m id p
  image : ∃ address, p.literals.get? id = some address ∧ v.image p.data.segments id address

/-- Everything that is linked to the expression has its image. -/
structure Done (id : ExprId) (p : Placement) : Prop where
  good : Good m base p
  settled : ∀ target, v.Linked m.arena target id → m.arena.IsLiteral target → Settled v m target p

/-- What is known stays known. -/
structure Keeps (p p' : Placement) : Prop where
  good : Good m base p → Good m base p'
  ready : ∀ id, Good m base p → Ready v m id p → Ready v m id p'
  settled : ∀ id, Good m base p → Settled v m id p → Settled v m id p'

instance : Std.Refl (Keeps v m base) where
  refl _ := ⟨fun h => h, fun _ _ h => h, fun _ _ h => h⟩

instance : IsTrans Placement (Keeps v m base) where
  trans _ _ _ first second :=
    { good := fun h => second.good (first.good h)
      ready := fun id hp h => second.ready id (first.good hp) (first.ready id hp h)
      settled := fun id hp h => second.settled id (first.good hp) (first.settled id hp h) }

end States

variable {v : Survey} {m : Module} {structs : Table String StructLayout} {base : Nat}
  {p p' : Placement} {id : ExprId}

theorem Keeps.of_good (h : Good m base p → Keeps v m base p p') : Keeps v m base p p' :=
  ⟨fun hp => (h hp).good hp, fun id hp => (h hp).ready id hp, fun id hp => (h hp).settled id hp⟩

theorem Keeps.done (h : Keeps v m base p p') (hp : Done v m base id p) : Done v m base id p' :=
  ⟨h.good hp.good, fun target hlinked hliteral =>
    h.settled target hp.good (hp.settled target hlinked hliteral)⟩

section Sound

variable (hv : v.Sound m structs)
include hv

/-- Nothing has to be announced where nothing is passed down. -/
theorem Good.ready_of_none (hp : Good m base p)
    (hnone : v.typed → isArray m.arena id = true → v.told id = none) : Ready v m id p := by
  intro htyped harray
  cases hexpected : p.expected.get? id with
  | none => exact (hnone htyped harray).symm
  | some ty => exact (hv.told id ty htyped harray (hp.announced id ty harray hexpected)).symm

theorem expect_keeps {ty : Ty} (hty : isArray m.arena id = true → m.Stands id (some ty)) :
    Along (Keeps v m base) (expect id ty) := by
  intro p a p' h
  obtain rfl : p' = { p with expected := p.expected.set id ty } := by cases h; rfl
  have hget (other : ExprId) := p.expected.get?_set id ty other
  have hready (other : ExprId) (hp : Ready v m other p) :
      Ready v m other { p with expected := p.expected.set id ty } := by
    intro htyped harray
    rw [hget]
    split
    · next heq =>
      subst heq
      exact (hv.told id ty htyped harray (hty harray)).symm
    · exact hp htyped harray
  refine ⟨fun hp => ⟨hp.begun, fun other ty' harray hother => ?_⟩, fun other _ => hready other,
    fun other _ hp => ⟨hready other hp.ready, hp.image⟩⟩
  rw [hget] at hother
  split at hother
  · next heq =>
    subst heq
    cases hother
    exact hty harray
  · exact hp.announced other ty' harray hother

omit hv in
theorem expect_ready {ty : Ty} (hty : v.typed → isArray m.arena id = true → v.told id = some ty) :
    Ensures (fun _ => True) (expect id ty) (Ready v m id) := by
  intro p a p' h _ htyped harray
  cases h
  rw [Table.get?_set, if_pos rfl, hty htyped harray]

/-- Recording the place of a literal, some time after coming to it. -/
theorem Good.placed (hp : Good m base p) {q : Placement} (hq : Keeps v m base p q) {address : Nat}
    {data : DataImage} (hgrows : q.data.Grows data) (hconsistent : data.Consistent base)
    (himage : Ready v m id p → v.image data.segments id address) :
    Keeps v m base p { q with data, literals := q.literals.set id address } ∧
      (Ready v m id p → ∀ target, target = id ∨ Settled v m target q →
        Settled v m target { q with data, literals := q.literals.set id address }) := by
  have hself (hready : Ready v m id p) :
      Settled v m id { q with data, literals := q.literals.set id address } :=
    ⟨hq.ready id hp hready, address, by rw [Table.get?_set, if_pos rfl], himage hready⟩
  have hother (other : ExprId) (hne : id ≠ other) (h : Settled v m other q) :
      Settled v m other { q with data, literals := q.literals.set id address } := by
    obtain ⟨place, hplace, hother⟩ := h.image
    refine ⟨h.ready, place, ?_, hv.mono _ _ other place hgrows.subset hother⟩
    rw [Table.get?_set, if_neg hne, hplace]
  refine ⟨⟨fun _ => ⟨.inr hconsistent, (hq.good hp).announced⟩, fun other _ => hq.ready other hp,
    fun other _ h => ?_⟩, fun hready target h => ?_⟩
  · by_cases heq : id = other
    · exact heq ▸ hself (heq ▸ h.ready)
    · exact hother other heq (hq.settled other hp h)
  · by_cases heq : id = target
    · exact heq ▸ hself hready
    · exact hother target heq (h.resolve_left (Ne.symm heq))

theorem Good.place (hp : Good m base p) {q : Placement} (hq : Keeps v m base p q)
    {bytes : List UInt8} {align : Nat} {a : Unit} (h : place id bytes align q = .ok (a, p'))
    (himage : Ready v m id p → ∀ blocks address, q.data.segments ⊆ blocks →
      ⟨address, bytes⟩ ∈ blocks → align ∣ address → v.image blocks id address) :
    Keeps v m base p p' ∧ (Ready v m id p → ∀ target, target = id ∨ Settled v m target q →
      Settled v m target p') := by
  have hgrows := place_grows id bytes align q a p' h
  obtain ⟨address, data, hblock, rfl⟩ := place_eq_ok h
  have hmem : ⟨address, bytes⟩ ∈ data.segments := by
    obtain ⟨-, rfl⟩ := DataImage.addBlock_ok hblock
    simp [DataImage.segments]
  exact hp.placed hv hq hgrows ((hq.good hp).begun.addBlock hblock) fun hready =>
    himage hready data.segments address hgrows.subset hmem (DataImage.addBlock_ok hblock).1.aligned

theorem Good.placeString (hp : Good m base p) {content : String} {a : Unit}
    (hid : m.arena.expr? id = some (.str content))
    (h : placeString id content p = .ok (a, p')) :
    Keeps v m base p p' ∧ (Ready v m id p → Settled v m id p') := by
  have hgrows := placeString_grows id content p a p' h
  obtain ⟨address, data, hheader, rfl⟩ := placeString_ok h
  have hconsistent := hp.begun.header hheader
  obtain ⟨-, start, hstart, hblock⟩ :=
    hconsistent.headers content address (DataImage.headers_of_header hheader)
  have hstring : ⟨start, content.toUTF8.toList⟩ ∈ data.strings :=
    (hconsistent.strings _).mpr ⟨content, hstart, rfl⟩
  obtain ⟨hkeeps, hsettled⟩ := hp.placed hv (Std.Refl.refl p) hgrows hconsistent fun _ =>
    hv.str _ id content address start hid
      (List.mem_append_right _ hblock) (List.mem_append_left _ hstring)
  exact ⟨hkeeps, fun hready => hsettled hready id (.inl rfl)⟩

/-! ## Arrays -/

section Arrays

variable {elements : List ExprId} {stated : Option Ty} {ty : Ty}
  (hid : m.arena.expr? id = some (.array elements stated))
include hid

omit hv in
/-- An array announces to the literals in it only what is passed down to them. -/
theorem Good.stands_inner (hp : Good m base p) (hreach : m.Reaches id) {inner : Ty}
    (hinner : (arrayElementType m.arena stated (p.expected.get? id) elements).element? = some inner)
    {e : ExprId} (he : e ∈ elements) : m.Stands e (some inner) := by
  obtain ⟨passed, hstands⟩ := hreach
  cases stated with
  | some ty =>
    have hchild := hstands.child hid he
    rwa [Expr.passes, show arrayElementType m.arena (some ty) passed elements = ty from rfl,
      show ty.element? = some inner from hinner] at hchild
  | none =>
    cases hexpected : p.expected.get? id with
    | some ty =>
      have hchild := (hp.announced id ty (isArray_iff.mpr ⟨_, _, hid⟩) hexpected).child hid he
      rw [hexpected] at hinner
      rwa [Expr.passes, hinner] at hchild
    | none =>
      -- Without an announcement the elements are scalars.
      rw [hexpected] at hinner
      simp only [arrayElementType] at hinner
      split at hinner <;> cases hinner

theorem Good.expectElements (hp : Good m base p) (hreach : m.Reaches id) {q : Placement}
    (hty : ty = arrayElementType m.arena stated (p.expected.get? id) elements)
    (h : expectElements m.arena elements ty p = .ok ((), q)) :
    Keeps v m base p q ∧ ∀ e ∈ elements,
      (v.typed → isArray m.arena e = true → v.told e = ty.element?) → Ready v m e q := by
  cases hinner : ty.element? with
  | none =>
    simp only [Placement.expectElements, hinner] at h
    cases h
    exact ⟨Std.Refl.refl _, fun e _ htold => hp.ready_of_none hv htold⟩
  | some inner =>
    simp only [Placement.expectElements, hinner] at h
    have hkeeps (e : ExprId) (he : e ∈ elements.filter (isArray m.arena)) :
        Along (Keeps v m base) (expect e inner) := expect_keeps hv fun _ =>
      hp.stands_inner hid hreach (hty ▸ hinner) (List.mem_of_mem_filter he)
    refine ⟨Along.forM hkeeps p () q h, fun e he htold htyped harray => ?_⟩
    have hmem : e ∈ elements.filter (isArray m.arena) := List.mem_filter.mpr ⟨he, harray⟩
    refine (Ensures.forM (P := Good m base) (Q := fun q => Good m base q ∧ Ready v m e q) hmem
      (fun e' he' p a p' h => (hkeeps e' he' p a p' h).good) ?_ ?_ p () q h hp).2 htyped harray
    · intro p a p' h hp
      exact ⟨(hkeeps e hmem p a p' h).good hp, expect_ready htold p a p' h trivial⟩
    · intro e' he' p a p' h hp
      have hkeeps := hkeeps e' he' p a p' h
      exact ⟨hkeeps.good hp.1, hkeeps.ready e hp.1 hp.2⟩

end Arrays

/-- A literal is settled with everything linked to it, if visiting its children settles them. -/
theorem visitor_expr_settles {e : Expr} {walk : PlaceM Unit} (hid : m.arena.expr? id = some e)
    (hreach : m.Reaches id) (hwalk : Along (Keeps v m base) walk)
    (hchildren : ∀ child ∈ e.children, Ensures (fun p => Good m base p ∧ Ready v m child p) walk
      (Done v m base child)) {a : Unit}
    (h : (visitor m.arena structs).expr id e walk p = .ok (a, p')) (hp : Good m base p) :
    Keeps v m base p p' ∧ (Ready v m id p → Done v m base id p') := by
  -- What is linked to a literal is the literal, or linked to one of its children.
  have hdone {r : Placement} (hkeeps : Keeps v m base p r)
      (hself : Ready v m id p → m.arena.IsLiteral id → Settled v m id r)
      (hinner : Ready v m id p → ∀ child ∈ e.children,
        (v.typed → isArray m.arena child = true →
          v.told child = e.passes m.arena (v.told id)) →
        ∀ target, v.Linked m.arena target child → m.arena.IsLiteral target →
          Settled v m target r) :
      Keeps v m base p r ∧ (Ready v m id p → Done v m base id r) := by
    refine ⟨hkeeps, fun hready => ⟨hkeeps.good hp, fun target hlinked hliteral => ?_⟩⟩
    cases hlinked with
    | self => exact hself hready hliteral
    | child hid' hchild htold hlinked =>
      cases hid.symm.trans hid'
      exact hinner hready _ hchild htold target hlinked hliteral
  cases e with
  | str content =>
    obtain ⟨hkeeps, hself⟩ := hp.placeString hv hid h
    exact hdone hkeeps (fun hready _ => hself hready) (by simp)
  | array elements stated =>
    obtain ⟨ty, q, r, bytes, align, hty, hexpect, hwalked, hencode, hplace⟩ := placeArray_ok h
    obtain ⟨hq, hinner⟩ := hp.expectElements hv hid hreach hty hexpect
    have hr : Keeps v m base p r := IsTrans.trans _ _ _ hq (hwalk q () r hwalked)
    have htype (hready : Ready v m id p) (htyped : v.typed) :
        ty = arrayElementType m.arena stated (v.told id) elements := by
      rw [hty, hready htyped (isArray_iff.mpr ⟨_, _, hid⟩)]
    have hchild (child : ExprId) (hmem : child ∈ elements)
        (htold : v.typed → isArray m.arena child = true → v.told child = ty.element?) :
        Done v m base child r :=
      hchildren child hmem q () r hwalked ⟨hq.good hp, hinner child hmem htold⟩
    obtain ⟨hkeeps, hsettled⟩ := hp.place hv hr hplace fun hready blocks address hsub hblock
        haligned => by
      refine hv.array blocks r.literals id elements stated ty bytes align address hreach hid
        (htype hready) hencode hblock haligned fun e he hliteral htold => ?_
      obtain ⟨target, htarget, himage⟩ := ((hchild e he htold).settled e .self hliteral).image
      exact ⟨target, htarget, hv.mono _ _ e target hsub himage⟩
    refine hdone hkeeps (fun hready _ => hsettled hready id (.inl rfl)) ?_
    intro hready child hmem htold target hlinked hliteral
    have htold (htyped : v.typed) (harray : isArray m.arena child = true) :
        v.told child = ty.element? := by
      rw [htold htyped harray, htype hready htyped, Expr.passes]
    exact hsettled hready target (.inr ((hchild child hmem htold).settled target hlinked hliteral))
  | struct name fields =>
    obtain ⟨bytes, q, hlift, hplace⟩ := PlaceM.bind_ok.mp h
    obtain ⟨hencode, rfl⟩ := PlaceM.lift_ok hlift
    obtain ⟨hkeeps, hsettled⟩ :=
      hp.place hv (Std.Refl.refl p) hplace fun _ blocks address _ hblock _ =>
        hv.struct blocks id name fields bytes address hid hencode hblock
    refine hdone hkeeps (fun hready _ => hsettled hready id (.inl rfl)) ?_
    -- The members are numbers, so there is nothing in them.
    intro _ child hchild _ target hlinked hliteral
    obtain ⟨t, ht, hliteral⟩ := hliteral
    obtain ⟨field, hfield, rfl⟩ := List.mem_map.mp hchild
    obtain ⟨c, hc⟩ := Option.isSome_iff_exists.mp (encodeStruct_constants hencode field hfield)
    rw [(fieldConstant?_eq_some.mp hc).within_plain hlinked.within ht] at hliteral
    cases hliteral
  | _ =>
    refine hdone (hwalk p a p' h) ?_ ?_
    · rintro - ⟨t, ht, hliteral⟩
      cases hid.symm.trans ht
      cases hliteral
    · intro _ child hchild htold target
      exact (hchildren child hchild p a p' h ⟨hp, hp.ready_of_none hv htold⟩).settled target

/-- Visiting an expression keeps what is known, and settles what is linked to it. -/
theorem visitExpr_settles (hreach : m.Reaches id) :
    Along (Keeps v m base) ((visitor m.arena structs).visitExpr m.arena id) ∧
      Ensures (fun p => Good m base p ∧ Ready v m id p)
        ((visitor m.arena structs).visitExpr m.arena id) (Done v m base id) := by
  refine Visitor.visitExpr_induction _ _ (P := fun id x => m.Reaches id → Along (Keeps v m base) x ∧
    Ensures (fun p => Good m base p ∧ Ready v m id p) x (Done v m base id))
    (fun _ _ _ => ⟨(Along.lasting _).dangling _, .throw _⟩) ?_ id hreach
  intro id e visit hid hvisit hreach
  have hkeeps (child : ExprId) (hchild : child ∈ e.children) :
      Along (Keeps v m base) (visit child) := (hvisit child (hreach.child hid hchild)).1
  have hchildren (child : ExprId) (hchild : child ∈ e.children) :
      Ensures (fun p => Good m base p ∧ Ready v m child p) (e.children.forM visit)
        (Done v m base child) := by
    refine Ensures.forM hchild (fun other hother p a p' h hp => ?_)
      (hvisit child (hreach.child hid hchild)).2 (fun other hother p a p' h => ?_)
    · exact ⟨(hkeeps other hother p a p' h).good hp.1,
        (hkeeps other hother p a p' h).ready _ hp.1 hp.2⟩
    · exact (hkeeps other hother p a p' h).done
  constructor
  · intro p a p' h
    exact .of_good fun hp =>
      (visitor_expr_settles hv hid hreach (.forM hkeeps) hchildren h hp).1
  · intro p a p' h hp
    exact (visitor_expr_settles hv hid hreach (.forM hkeeps) hchildren h hp.1).2 hp.2

/-- Visiting an expression that stands directly in a statement. -/
theorem visitRoot_settles {r : Root} (hstands : m.Stands r.expr r.passed) :
    Along (Keeps v m base) (visitRoot m.arena structs r) ∧
      ((v.typed → isArray m.arena r.expr = true → v.told r.expr = r.passed) →
        Ensures (Good m base) (visitRoot m.arena structs r) (Done v m base r.expr)) := by
  obtain ⟨e, passed⟩ := r
  obtain ⟨hkeeps, hdone⟩ : Along (Keeps v m base) _ ∧ Ensures _ _ _ :=
    visitExpr_settles hv ⟨passed, hstands⟩
  cases passed with
  | none =>
    exact ⟨hkeeps, fun htold p a p' h hp => hdone p a p' h ⟨hp, hp.ready_of_none hv htold⟩⟩
  | some ty =>
    have hexpect : Along (Keeps v m base) (expect e ty) := expect_keeps hv fun _ => hstands
    refine ⟨(Along.lasting _).andThen hexpect hkeeps,
      fun htold => Ensures.bind ?_ fun _ => hdone⟩
    intro p a p' h hp
    exact ⟨(hexpect p a p' h).good hp, expect_ready htold p a p' h trivial⟩

/-- After the walk, what is linked to an expression of a statement has its image. -/
theorem visitModule_settles {placed : Placement}
    (h : (visitor m.arena structs).visitModule m p = .ok ((), placed)) (hp : Good m base p)
    {sid : StmtId} {s : Stmt} (hcontains : m.Contains sid) (hs : m.arena.stmt? sid = some s)
    {root : ExprId} (hroot : root ∈ s.exprChildren)
    (htold : v.typed → isArray m.arena root = true → v.told root = s.passes) :
    Done v m base root placed := by
  obtain ⟨roots, -, hroots, hmem⟩ := visitModule_roots h
  have hr : (⟨root, s.passes⟩ : Root) ∈ roots := (hmem _).mpr ⟨sid, s, hcontains, hs, hroot, rfl⟩
  have hstands (r : Root) (hr : r ∈ roots) : m.Stands r.expr r.passed := by
    obtain ⟨id, s, hcontains, hid, he, hpassed⟩ := (hmem r).mp hr
    rw [hpassed]
    exact .root hcontains hid he
  have hkeeps (r : Root) (hr : r ∈ roots) : Along (Keeps v m base) (visitRoot m.arena structs r) :=
    (visitRoot_settles hv (hstands r hr)).1
  exact Ensures.forM hr (fun r hr p a p' h => (hkeeps r hr p a p' h).good)
    ((visitRoot_settles hv (hstands _ hr)).2 htold)
    (fun r hr p a p' h => (hkeeps r hr p a p' h).done)
    p () placed hroots hp

end Sound

end Placement

namespace Module

variable {m : Module} {base : Nat}

theorem declarations_good {declared : ModuleInfo} (h : m.declarations base = .ok declared) :
    Placement.Good m base { data := declared.data } := by
  rw [declarations_data h]
  exact ⟨.inl rfl, fun _ _ _ h => nomatch h⟩

/-- After extraction, what is linked to an expression of a statement has its image. -/
theorem extract_settled {v : Survey} {info : ModuleInfo} (hv : v.Sound m info.structs)
    (h : m.extract base = .ok info) {sid : StmtId} {s : Stmt} (hcontains : m.Contains sid)
    (hs : m.arena.stmt? sid = some s) {root target : ExprId} (hroot : root ∈ s.exprChildren)
    (htold : v.typed → isArray m.arena root = true → v.told root = s.passes)
    (hlinked : v.Linked m.arena target root) (hliteral : m.arena.IsLiteral target) :
    ∃ address, info.literals.get? target = some address ∧
      v.image info.data.segments target address := by
  obtain ⟨declared, placed, hdeclared, hplaced, rfl⟩ := extract_ok h
  exact ((Placement.visitModule_settles hv hplaced (declarations_good hdeclared) hcontains hs hroot
    htold).settled target hlinked hliteral).image

end Module

end WasmBackend
