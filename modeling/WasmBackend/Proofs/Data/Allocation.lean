import Mathlib.Data.List.Perm.Basic
import Mathlib.Order.Nat
import WasmBackend.Build.Program
import WasmBackend.Proofs.Symbols.Declarations
import WasmBackend.Proofs.Walk

/-!
# Constant data does not overlap

Whatever is done to an image only adds to it: new blocks lie apart from each other, after everything
that was there, and below the end of the address space (`DataImage.Grows`). Reserving, storing,
interning and making a header do so, and growing composes; a walk that places literals is a long
composition.

The data of one module starts where that of the module before ends, so over a working set growing
composes once more (`extractAll_data`).

The list of segments is no good for an induction, because strings are listed before other blocks
whenever they were stored. The order of segments is therefore left open (`List.Perm`), and all that
is said about them is symmetric. What the blocks hold is left out.
-/

namespace WasmBackend

open Compiled

/-! ## Blocks -/

namespace DataBlock

/-- The blocks have no byte in common. -/
def Apart (a b : DataBlock) : Prop := a.stop ≤ b.address ∨ b.stop ≤ a.address

instance (a b : DataBlock) : Decidable (a.Apart b) := inferInstanceAs (Decidable (_ ∨ _))

theorem Apart.symm {a b : DataBlock} (h : a.Apart b) : b.Apart a := Or.symm h

/-- The block lies between two addresses. -/
def Within (low high : Nat) (b : DataBlock) : Prop := low ≤ b.address ∧ b.stop ≤ high

theorem Within.mono {low low' high high' : Nat} {b : DataBlock} (h : b.Within low high)
    (hlow : low' ≤ low) (hhigh : high ≤ high') : b.Within low' high' :=
  ⟨hlow.trans h.1, h.2.trans hhigh⟩

/-- The blocks lie apart, between two addresses, and end below the end of the address space. -/
structure Laid (low high : Nat) (blocks : List DataBlock) : Prop where
  within : ∀ b ∈ blocks, b.Within low high
  limit : ∀ b ∈ blocks, b.stop < addressSpace
  apart : blocks.Pairwise Apart

namespace Laid

variable {low mid high : Nat} {first second : List DataBlock}

theorem nil (low high : Nat) : Laid low high [] := ⟨by simp, by simp, .nil⟩

theorem one {b : DataBlock} (hwithin : b.Within low high) (hlimit : b.stop < addressSpace) :
    Laid low high [b] :=
  ⟨by simpa using hwithin, by simpa using hlimit, List.pairwise_singleton _ _⟩

theorem perm (h : Laid low high first) (hperm : first.Perm second) : Laid low high second where
  within := fun b hb => h.within b (hperm.mem_iff.mpr hb)
  limit := fun b hb => h.limit b (hperm.mem_iff.mpr hb)
  apart := (hperm.pairwise_iff Apart.symm).mp h.apart

/-- Blocks after blocks. -/
theorem append (hfirst : Laid low mid first) (hsecond : Laid mid high second) (hlow : low ≤ mid)
    (hhigh : mid ≤ high) : Laid low high (first ++ second) where
  within := by
    intro b hb
    rcases List.mem_append.mp hb with hb | hb
    · exact (hfirst.within b hb).mono le_rfl hhigh
    · exact (hsecond.within b hb).mono hlow le_rfl
  limit := by
    intro b hb
    rcases List.mem_append.mp hb with hb | hb
    · exact hfirst.limit b hb
    · exact hsecond.limit b hb
  apart := by
    refine List.pairwise_append.mpr ⟨hfirst.apart, hsecond.apart, fun a ha b hb => ?_⟩
    exact .inl ((hfirst.within a ha).2.trans (hsecond.within b hb).1)

theorem sublist (h : Laid low high first) (hsub : second.Sublist first) : Laid low high second where
  within := fun b hb => h.within b (hsub.subset hb)
  limit := fun b hb => h.limit b (hsub.subset hb)
  apart := h.apart.sublist hsub

end Laid

end DataBlock

/-! ## Images -/

namespace DataImage

open DataBlock (Laid)

variable {d d' : DataImage} {content : String} {bytes : List UInt8} {align address : Nat}

/-- The second image is the first with blocks added after it. -/
structure Grows (d d' : DataImage) : Prop where
  cursor : d.cursor ≤ d'.cursor
  segments : ∃ added, d'.segments.Perm (d.segments ++ added) ∧ Laid d.cursor d'.cursor added

namespace Grows

theorem refl (d : DataImage) : d.Grows d := ⟨le_rfl, [], by simp, .nil _ _⟩

theorem trans {d₁ d₂ d₃ : DataImage} (h : d₁.Grows d₂) (h' : d₂.Grows d₃) : d₁.Grows d₃ := by
  obtain ⟨hcursor, first, hperm, hlaid⟩ := h
  obtain ⟨hcursor', second, hperm', hlaid'⟩ := h'
  refine ⟨hcursor.trans hcursor', first ++ second, ?_, hlaid.append hlaid' hcursor hcursor'⟩
  rw [← List.append_assoc]
  exact hperm'.trans (hperm.append_right second)

/-- All blocks of an image that began empty. -/
theorem laid {base : Nat} (h : (startingAt base).Grows d) : Laid base d.cursor d.segments := by
  obtain ⟨added, hperm, hlaid⟩ := h.segments
  exact hlaid.perm hperm.symm

end Grows

theorem le_alignUp {n : Nat} (h : align ≠ 0) : n ≤ alignUp n align := by
  have hdiv := Nat.div_add_mod (n + align - 1) align
  have hmod := Nat.mod_lt (n + align - 1) (Nat.pos_of_ne_zero h)
  unfold alignUp
  rw [Nat.mul_comm]
  omega

/-- The address is the first place of this size and alignment behind everything in the first image,
and the second image goes on where the place ends. -/
structure Takes (d d' : DataImage) (size align address : Nat) : Prop where
  pos : 0 < align
  first : address = alignUp d.cursor align
  aligned : align ∣ address
  behind : d.cursor ≤ address
  cursor : d'.cursor = address + size
  limit : address + size < addressSpace

theorem reserve_ok {size : Nat} (h : d.reserve size align = .ok (address, d')) :
    d.Takes d' size align address ∧ d' = { d with cursor := address + size } := by
  unfold reserve at h
  split at h
  · cases h
  · next halign =>
    dsimp only at h
    split at h
    · cases h
    · next hlimit =>
      cases h
      exact ⟨⟨Nat.pos_of_ne_zero halign, rfl, Nat.dvd_mul_left _ _, le_alignUp halign, rfl,
        by omega⟩,
        rfl⟩

theorem addBlock_ok (h : d.addBlock bytes align = .ok (address, d')) :
    d.Takes d' bytes.length align address ∧
      d' = { d with
        cursor := address + bytes.length
        blocks := d.blocks ++ [⟨address, bytes⟩] } := by
  simp only [addBlock, bind_ok, pure_ok] at h
  obtain ⟨⟨start, _⟩, hreserve, h⟩ := h
  cases h
  obtain ⟨htakes, rfl⟩ := reserve_ok hreserve
  exact ⟨{ htakes with }, rfl⟩

/-- Contents that are known have their address; others are stored. An empty string has no bytes but
takes one. -/
theorem intern_ok (h : d.intern content = .ok (address, d')) :
    (d.interned.get? content = some address ∧ d' = d) ∨
      (d.interned.get? content = none ∧
        d.Takes d' (max content.toUTF8.toList.length 1) 1 address ∧
        d' = { d with
          cursor := address + max content.toUTF8.toList.length 1
          strings := d.strings ++ [⟨address, content.toUTF8.toList⟩]
          interned := d.interned.set content address }) := by
  unfold intern at h
  split at h
  · next hknown =>
    cases h
    exact .inl ⟨hknown, rfl⟩
  · next hnew =>
    simp only [bind_ok, pure_ok] at h
    obtain ⟨⟨start, _⟩, hreserve, h⟩ := h
    cases h
    obtain ⟨htakes, rfl⟩ := reserve_ok hreserve
    exact .inr ⟨hnew, { htakes with }, rfl⟩

theorem header_ok (h : d.header content = .ok (address, d')) :
    (d.headers.get? content = some address ∧ d' = d) ∨
      (d.headers.get? content = none ∧ ∃ data stored headed,
        d.intern content = .ok (data, stored) ∧
        stored.addBlock (littleEndian 4 content.utf8ByteSize ++ littleEndian 4 data) 4 =
          .ok (address, headed) ∧
        d' = { headed with headers := headed.headers.set content address }) := by
  unfold header at h
  split at h
  · next hknown =>
    cases h
    exact .inl ⟨hknown, rfl⟩
  · next hnew =>
    simp only [bind_ok, pure_ok] at h
    obtain ⟨⟨data, stored⟩, hintern, ⟨_, headed⟩, hblock, h⟩ := h
    cases h
    exact .inr ⟨hnew, data, stored, headed, hintern, hblock, rfl⟩

/-! A request that does not fit leaves the image alone, except that a header is made in two steps:
when the second does not fit, the first has been taken. -/

section Failing

variable {e : CompileError}

theorem compiled_error {r : Answer} (h : r.compiled = .error e) : ∃ d, r = .error (e, d) := by
  cases r with
  | ok _ => cases h
  | error failed =>
    cases h
    exact ⟨failed.2, rfl⟩

theorem reserve_error {size : Nat} (h : d.reserve size align = .error (e, d')) :
    d' = d ∧ (e = .invalidAlignment align ∨ e = .addressOverflow size) := by
  unfold reserve at h
  split at h
  · cases h
    exact ⟨rfl, .inl rfl⟩
  · dsimp only at h
    split at h
    · cases h
      exact ⟨rfl, .inr rfl⟩
    · cases h

theorem addBlock_error (h : d.addBlock bytes align = .error (e, d')) :
    d' = d ∧ (e = .invalidAlignment align ∨ e = .addressOverflow bytes.length) := by
  rcases bind_error.mp h with hreserve | ⟨_, -, h⟩
  · exact reserve_error hreserve
  · cases h

theorem intern_error (h : d.intern content = .error (e, d')) :
    d' = d ∧ (e = .invalidAlignment 1 ∨
      e = .addressOverflow (max content.toUTF8.toList.length 1)) := by
  unfold intern at h
  split at h
  · cases h
  · rcases bind_error.mp h with hreserve | ⟨_, -, h⟩
    · exact reserve_error hreserve
    · cases h

theorem header_error (h : d.header content = .error (e, d')) :
    (d' = d ∧ d.intern content = .error (e, d)) ∨
      ∃ data, d.intern content = .ok (data, d') ∧
        d'.addBlock (littleEndian 4 content.utf8ByteSize ++ littleEndian 4 data) 4 =
          .error (e, d') := by
  unfold header at h
  split at h
  · cases h
  · rcases bind_error.mp h with hintern | ⟨⟨data, stored⟩, hintern, h⟩
    · obtain ⟨rfl, -⟩ := intern_error hintern
      exact .inl ⟨rfl, hintern⟩
    · rcases bind_error.mp h with hblock | ⟨_, -, h⟩
      · obtain ⟨rfl, -⟩ := addBlock_error hblock
        exact .inr ⟨data, hintern, hblock⟩
      · cases h

end Failing

theorem addBlock_grows (h : d.addBlock bytes align = .ok (address, d')) : d.Grows d' := by
  obtain ⟨htakes, rfl⟩ := addBlock_ok h
  have hbehind := htakes.behind
  refine ⟨by simp only; omega, [⟨address, bytes⟩], ?_, .one ⟨hbehind, le_rfl⟩ htakes.limit⟩
  simp [segments]

theorem intern_grows (h : d.intern content = .ok (address, d')) : d.Grows d' := by
  rcases intern_ok h with ⟨-, rfl⟩ | ⟨-, htakes, rfl⟩
  · exact .refl _
  · have hbehind := htakes.behind
    have hstop : (⟨address, content.toUTF8.toList⟩ : DataBlock).stop ≤
        address + max content.toUTF8.toList.length 1 := by
      unfold DataBlock.stop
      dsimp only
      omega
    refine ⟨by simp only; omega, [⟨address, content.toUTF8.toList⟩], ?_,
      .one ⟨hbehind, hstop⟩ (hstop.trans_lt htakes.limit)⟩
    simp only [segments, List.append_assoc]
    exact List.Perm.append_left _ List.perm_append_comm

theorem header_grows (h : d.header content = .ok (address, d')) : d.Grows d' := by
  rcases header_ok h with ⟨-, rfl⟩ | ⟨-, data, stored, headed, hintern, hblock, rfl⟩
  · exact .refl _
  · obtain ⟨hcursor, hsegments⟩ := (intern_grows hintern).trans (addBlock_grows hblock)
    exact ⟨hcursor, hsegments⟩

end DataImage

/-! ## Placing literals -/

namespace PlaceM

variable {α β : Type}

theorem bind_ok {x : PlaceM α} {k : α → PlaceM β} {p p' : Placement} {b : β} :
    (x >>= k) p = .ok (b, p') ↔ ∃ a q, x p = .ok (a, q) ∧ k a q = .ok (b, p') := by
  show (x p >>= fun r => k r.1 r.2) = _ ↔ _
  rw [Compiled.bind_ok]
  exact ⟨fun ⟨r, h⟩ => ⟨r.1, r.2, h⟩, fun ⟨a, q, h⟩ => ⟨(a, q), h⟩⟩

theorem lift_ok {x : Compiled α} {a : α} {p p' : Placement}
    (h : (liftM x : PlaceM α) p = .ok (a, p')) : x = .ok a ∧ p = p' := by
  cases x with
  | error e => cases h
  | ok b =>
    cases h
    exact ⟨rfl, rfl⟩

theorem get_bind (k : Placement → PlaceM α) (p : Placement) : (get >>= k) p = k p p := rfl

/-- When the step succeeds, it has led from its first state to a related one. -/
def Along (R : Placement → Placement → Prop) (x : PlaceM α) : Prop :=
  ∀ p a p', x p = .ok (a, p') → R p p'

/-- A property of steps that doing one after the other keeps, and that a dangling reference does not
spoil. -/
structure Lasting (C : PlaceM Unit → Prop) : Prop where
  pure : C (Pure.pure ())
  andThen : ∀ {x y : PlaceM Unit}, C x → C y → C (x >>= fun _ => y)
  dangling : ∀ node, C (throw (.danglingNode node))

theorem Along.lasting (R : Placement → Placement → Prop) [Std.Refl R] [IsTrans Placement R] :
    Lasting (Along R : PlaceM Unit → Prop) where
  pure := by
    intro p a p' h
    cases h
    exact Std.Refl.refl _
  andThen := by
    intro x y hx hy p b p' h
    obtain ⟨a, q, hq, hp'⟩ := bind_ok.mp h
    exact IsTrans.trans _ _ _ (hx p a q hq) (hy q b p' hp')
  dangling := by
    intro node p a p' h
    cases h

namespace Lasting

variable {C : PlaceM Unit → Prop} (hC : Lasting C)
include hC

theorem forM {l : List α} {k : α → PlaceM Unit} (hk : ∀ a ∈ l, C (k a)) : C (l.forM k) := by
  induction l with
  | nil => exact hC.pure
  | cons a rest ih =>
    exact hC.andThen (hk a List.mem_cons_self) (ih fun b hb => hk b (List.mem_cons_of_mem _ hb))

theorem optionForM {o : Option α} {k : α → PlaceM Unit} (hk : ∀ a, C (k a)) : C (o.forM k) := by
  cases o with
  | none => exact hC.pure
  | some a => exact hk a

end Lasting

theorem Along.forM {R : Placement → Placement → Prop} [Std.Refl R] [IsTrans Placement R]
    {l : List α} {k : α → PlaceM Unit} (hk : ∀ a ∈ l, Along R (k a)) : Along R (l.forM k) :=
  (lasting R).forM hk

end PlaceM

namespace Placement

open PlaceM (Along)

/-- The second state has the data of the first, and more after it. -/
def Grows (p p' : Placement) : Prop := p.data.Grows p'.data

instance : Std.Refl Grows := ⟨fun p => .refl p.data⟩

instance : IsTrans Placement Grows := ⟨fun _ _ _ h h' => DataImage.Grows.trans h h'⟩

theorem placeString_ok {id : ExprId} {content : String} {p p' : Placement} {a : Unit}
    (h : placeString id content p = .ok (a, p')) :
    ∃ address data, p.data.header content = .ok (address, data) ∧
      p' = { p with data, literals := p.literals.set id address } := by
  obtain ⟨⟨address, data⟩, hheader, h⟩ := bind_ok.mp h
  cases h
  exact ⟨address, data, mapError_ok.mp hheader, rfl⟩

theorem place_eq_ok {id : ExprId} {bytes : List UInt8} {align : Nat} {p p' : Placement} {a : Unit}
    (h : place id bytes align p = .ok (a, p')) :
    ∃ address data, p.data.addBlock bytes align = .ok (address, data) ∧
      p' = { p with data, literals := p.literals.set id address } := by
  obtain ⟨⟨address, data⟩, hblock, h⟩ := bind_ok.mp h
  cases h
  exact ⟨address, data, mapError_ok.mp hblock, rfl⟩

theorem place_grows (id : ExprId) (bytes : List UInt8) (align : Nat) :
    Along Grows (place id bytes align) := by
  intro p a p' h
  obtain ⟨address, data, hblock, rfl⟩ := place_eq_ok h
  exact DataImage.addBlock_grows hblock

theorem placeString_grows (id : ExprId) (content : String) :
    Along Grows (placeString id content) := by
  intro p a p' h
  obtain ⟨address, data, hheader, rfl⟩ := placeString_ok h
  exact DataImage.header_grows hheader

section Arrays

variable (arena : Arena) (id : ExprId) (elements : List ExprId) (stated : Option Ty)

/-- What an array literal makes known about the literals in it. -/
def expectElements (elementTy : Ty) : PlaceM Unit :=
  match elementTy.element? with
  | some inner => (elements.filter (isArray arena)).forM fun e => expect e inner
  | none => pure ()

/-- Stores an array literal of a known element type, its elements first. -/
def placeElements (walk : PlaceM Unit) (elementTy : Ty) : PlaceM Unit := do
  walk
  let (bytes, align) ← encodeArray arena (← get).literals elementTy elements
  place id bytes align

/-- Placing an array literal settles its element type first. -/
theorem placeArray_eq (walk : PlaceM Unit) (p : Placement) {elementTy : Ty}
    (h : arrayElementType arena stated (p.expected.get? id) elements = elementTy) :
    placeArray arena id elements stated walk p =
      (expectElements arena elements elementTy >>= fun _ =>
        placeElements arena id elements walk elementTy) p := by
  subst h
  unfold placeArray expectElements
  rw [PlaceM.get_bind]
  dsimp only
  cases (arrayElementType arena stated (p.expected.get? id) elements).element? <;> rfl

end Arrays

/-! ## The walk -/

variable (arena : Arena) (structs : Table String StructLayout)

/-- Makes known what is passed down to an expression, and visits it. -/
def visitRoot (r : Root) : PlaceM Unit := do
  r.passed.forM (expect r.expr)
  (visitor arena structs).visitExpr arena r.expr

variable {arena structs}

/-- The walk is a list of visits. -/
theorem visitModule_eq (m : Module) : (visitor m.arena structs).visitModule m =
    m.visits.forM ((visitor m.arena structs).perform m.arena expect) := by
  refine Visitor.visitModule_eq (fun id decl walk => ?_) (fun id s walk hs => ?_) m
  · simp only [visitor]
    cases decl.ty.bind Ty.element? <;> rfl
  · cases s <;> first | rfl | exact absurd rfl (hs _)

/-- When a walk succeeds, it has met no dangling reference, and visited the expressions that stand
in the statements of the module. -/
theorem visitModule_roots {m : Module} {p p' : Placement}
    (h : (visitor m.arena structs).visitModule m p = .ok ((), p')) : ∃ roots : List Root,
      m.visits = roots.map .root ∧ roots.forM (visitRoot m.arena structs) p = .ok ((), p') ∧
      ∀ r, r ∈ roots ↔ ∃ id s, m.Contains id ∧ m.arena.stmt? id = some s ∧
        r.expr ∈ s.exprChildren ∧ r.passed = s.passes := by
  have hroots (visits : List Visit) (p : Placement)
      (h : visits.forM ((visitor m.arena structs).perform m.arena expect) p = .ok ((), p')) :
      ∃ roots : List Root, visits = roots.map .root ∧
        roots.forM (visitRoot m.arena structs) p = .ok ((), p') := by
    induction visits generalizing p with
    | nil => exact ⟨[], rfl, h⟩
    | cons v rest ih =>
      obtain ⟨⟨⟩, q, hq, hrest⟩ := PlaceM.bind_ok.mp h
      cases v with
      | dangling node => cases hq
      | root r =>
        obtain ⟨roots, hvisits, hroots⟩ := ih q hrest
        exact ⟨r :: roots, by rw [hvisits, List.map_cons],
          PlaceM.bind_ok.mpr ⟨(), q, hq, hroots⟩⟩
  rw [visitModule_eq] at h
  obtain ⟨roots, hvisits, hroots⟩ := hroots m.visits p h
  refine ⟨roots, hvisits, hroots, fun r => ?_⟩
  rw [← Module.root_mem_visits (by simp [hvisits]), hvisits]
  simp

/-- What holds of placing every expression, if it holds of placing what is below, holds of visiting
every expression. -/
theorem visitExpr_lasting {C : PlaceM Unit → Prop} (hC : PlaceM.Lasting C)
    (hexpr : ∀ id e walk, arena.expr? id = some e → C walk →
      C ((visitor arena structs).expr id e walk))
    (id : ExprId) : C ((visitor arena structs).visitExpr arena id) :=
  Visitor.visitExpr_induction _ _ (P := fun _ => C) (fun _ _ => hC.dangling _)
    (fun id e _ hid hvisit => hexpr id e _ hid (hC.forM fun child _ => hvisit child)) id

/-- What holds of placing every expression, and of what is made known about one, holds of the
walk. -/
theorem visitModule_lasting {m : Module} {C : PlaceM Unit → Prop} (hC : PlaceM.Lasting C)
    (hexpr : ∀ id e walk, m.arena.expr? id = some e → C walk →
      C ((visitor m.arena structs).expr id e walk))
    (hexpect : ∀ id ty, C (expect id ty)) : C ((visitor m.arena structs).visitModule m) := by
  rw [visitModule_eq]
  refine hC.forM fun v _ => ?_
  cases v with
  | dangling node => exact hC.dangling node
  | root r => exact hC.andThen (hC.optionForM (hexpect r.expr)) (visitExpr_lasting hC hexpr r.expr)

/-- One thing that the walk does: it announces a type, or it stores a literal. -/
inductive Step (arena : Arena) (structs : Table String StructLayout) :
    Placement → Placement → Prop
  | expect (p : Placement) (id : ExprId) (ty : Ty) :
      Step arena structs p { p with expected := p.expected.set id ty }
  | string {p : Placement} {id : ExprId} {content : String} {address : Nat} {data : DataImage}
      (hid : arena.expr? id = some (.str content))
      (hheader : p.data.header content = .ok (address, data)) :
      Step arena structs p { p with data, literals := p.literals.set id address }
  | array {p : Placement} {id : ExprId} {elements : List ExprId} {stated : Option Ty} {ty : Ty}
      {bytes : List UInt8} {align address : Nat} {data : DataImage}
      (hid : arena.expr? id = some (.array elements stated))
      (hencode : encodeArray arena p.literals ty elements = .ok (bytes, align))
      (hblock : p.data.addBlock bytes align = .ok (address, data)) :
      Step arena structs p { p with data, literals := p.literals.set id address }
  | struct {p : Placement} {id : ExprId} {name : String} {fields : List FieldInit}
      {bytes : List UInt8} {address : Nat} {data : DataImage}
      (hid : arena.expr? id = some (.struct name fields))
      (hencode : encodeStruct arena structs name fields = .ok bytes)
      (hblock : p.data.addBlock bytes 4 = .ok (address, data)) :
      Step arena structs p { p with data, literals := p.literals.set id address }

section Steps

variable {R : Placement → Placement → Prop} (hR : PlaceM.Lasting (Along R))
variable (hstep : ∀ p p', Step arena structs p p' → R p p')

include hstep

theorem expect_along (id : ExprId) (ty : Ty) : Along R (expect id ty) := by
  intro p a p' h
  cases h
  exact hstep _ _ (.expect p id ty)

include hR

/-- What every step keeps, placing an expression keeps. -/
theorem visitor_expr_along {id : ExprId} {e : Expr} {walk : PlaceM Unit}
    (hid : arena.expr? id = some e) (hwalk : Along R walk) :
    Along R ((visitor arena structs).expr id e walk) := by
  cases e with
  | str content =>
    intro p a p' h
    obtain ⟨address, data, hheader, rfl⟩ := placeString_ok h
    exact hstep _ _ (.string hid hheader)
  -- Elements are told their type and placed before the array itself is.
  | array elements stated =>
    intro p a p' h
    have hplaced := (placeArray_eq arena id elements stated walk p rfl).symm.trans h
    refine hR.andThen ?_ (hR.andThen hwalk ?_) p a p' hplaced
    · unfold expectElements
      split
      · exact hR.forM fun _ _ => expect_along hstep _ _
      · exact hR.pure
    · intro q b q' hq
      rw [PlaceM.get_bind] at hq
      obtain ⟨⟨bytes, align⟩, _, hlift, hplace⟩ := PlaceM.bind_ok.mp hq
      obtain ⟨hencode, rfl⟩ := PlaceM.lift_ok hlift
      obtain ⟨address, data, hblock, rfl⟩ := place_eq_ok hplace
      exact hstep _ _ (.array hid hencode hblock)
  | struct name fields =>
    intro p a p' h
    obtain ⟨bytes, _, hlift, hplace⟩ := PlaceM.bind_ok.mp h
    obtain ⟨hencode, rfl⟩ := PlaceM.lift_ok hlift
    obtain ⟨address, data, hblock, rfl⟩ := place_eq_ok hplace
    exact hstep _ _ (.struct hid hencode hblock)
  | _ => exact hwalk

end Steps

theorem visitModule_along {m : Module} {R : Placement → Placement → Prop}
    (hR : PlaceM.Lasting (Along R)) (hstep : ∀ p p', Step m.arena structs p p' → R p p') :
    Along R ((visitor m.arena structs).visitModule m) :=
  visitModule_lasting hR (fun _ _ _ hid hwalk => visitor_expr_along hR hstep hid hwalk)
    (expect_along hstep)

theorem Step.grows {p p' : Placement} (h : Step arena structs p p') : Grows p p' := by
  cases h with
  | expect id ty => exact DataImage.Grows.refl _
  | string _ hheader => exact DataImage.header_grows hheader
  | array _ _ hblock => exact DataImage.addBlock_grows hblock
  | struct _ _ hblock => exact DataImage.addBlock_grows hblock

theorem visitModule_grows (structs : Table String StructLayout) (m : Module) :
    Along Grows ((visitor m.arena structs).visitModule m) :=
  visitModule_along (Along.lasting Grows) fun _ _ => Step.grows

end Placement

/-! ## Modules -/

/-- Declarations store nothing. -/
theorem Module.declarations_data {m : Module} {base : Nat} {info : ModuleInfo}
    (h : m.declarations base = .ok info) : info.data = .startingAt base := by
  obtain ⟨structs, functions, imports, hstructs, hfunctions, himports, hglobals⟩ :=
    declarations_ok h
  obtain ⟨layouts, -, rfl⟩ := addStructs_ok hstructs
  obtain rfl := addFunctions_ok hfunctions
  obtain rfl := addImports_ok himports
  obtain ⟨globals, -, rfl⟩ := addGlobals_ok hglobals
  rfl

/-- The data of a module lies after the address where it is to start. -/
theorem Module.extract_data {m : Module} {base : Nat} {info : ModuleInfo}
    (h : m.extract base = .ok info) : (DataImage.startingAt base).Grows info.data := by
  obtain ⟨declared, placed, hdeclared, hplaced, rfl⟩ := extract_ok h
  rw [← declarations_data hdeclared]
  exact Placement.visitModule_grows declared.structs m _ _ _ hplaced

/-- The data of a working set lies apart, each module's after that of the modules before it. -/
theorem extractAll_data {base : Nat} {modules : List Module} {infos : List ModuleInfo}
    (h : extractAll base modules = .ok infos) :
    ∃ stop, base ≤ stop ∧
      DataBlock.Laid base stop (infos.flatMap fun info => info.data.segments) := by
  induction modules generalizing base infos with
  | nil =>
    cases h
    exact ⟨base, le_rfl, .nil _ _⟩
  | cons m rest ih =>
    simp only [extractAll, bind_ok, pure_ok] at h
    obtain ⟨info, hinfo, others, hothers, rfl⟩ := h
    have hgrows := Module.extract_data hinfo
    obtain ⟨stop, hstop, hlaid⟩ := ih hothers
    have hcursor : base ≤ info.dataEnd := hgrows.cursor
    exact ⟨stop, hcursor.trans hstop, hgrows.laid.append hlaid hcursor hstop⟩

end WasmBackend
