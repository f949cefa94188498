import WasmBackend.Proofs.Data.Requests

/-!
# Constant data can be moved

Modules are laid out one behind the other, so where the data of a module starts depends on the
modules before it. Nothing else about the module may: extraction at a higher base finds what it
finds at a lower one, only further up. The distance must be a multiple of four, the largest
alignment, or the gaps between blocks would change.

Two walks over one module are compared, from images that correspond (`Placement.Relocated`). The
bytes of corresponding blocks are not the same, because some of them are addresses. A block is
therefore taken apart into bytes that mean the same anywhere and addresses (`DataPart`), as the
literal says that it was made from (`Composed`). A string is made of a header, which points to the
content; an array literal holds the addresses of the literals in it; a struct literal has no
addresses at all.

Going down is the direction in which nothing can fail: what fits at the higher base fits at the
lower one.
-/

namespace WasmBackend

open Compiled

/-! ## Bytes with addresses in them -/

/-- A stretch of stored bytes: bytes that mean the same anywhere, or the address of other data. -/
inductive DataPart where
  | fixed (bytes : List UInt8)
  | address (target : Nat)
  deriving DecidableEq, Repr

namespace DataPart

def bytes : DataPart → List UInt8
  | fixed bytes => bytes
  | address target => littleEndian 4 target

/-- The part with the data at some distance: what it points to has moved. -/
def shift (distance : Nat) : DataPart → DataPart
  | fixed bytes => fixed bytes
  | address target => address (target + distance)

@[simp] theorem length_bytes_shift (distance : Nat) (part : DataPart) :
    (part.shift distance).bytes.length = part.bytes.length := by
  cases part <;> simp [shift, bytes]

/-- The bytes of all parts, shifted or not, are as many. -/
theorem length_flatMap_shift (distance : Nat) (parts : List DataPart) :
    ((parts.map (shift distance)).flatMap bytes).length = (parts.flatMap bytes).length := by
  induction parts with
  | nil => rfl
  | cons part rest ih =>
    simp only [List.map_cons, List.flatMap_cons, List.length_append, ih, length_bytes_shift]

end DataPart

/-- Why a block was stored: as the header of a string, or for an array or struct literal. -/
inductive BlockOrigin where
  | header (content : String)
  | literal (id : ExprId)
  deriving DecidableEq, Repr

/-- The literal at an expression gets its address from this block. -/
def BlockOrigin.of (arena : Arena) (id : ExprId) : BlockOrigin :=
  match arena.expr? id with
  | some (.str content) => .header content
  | _ => .literal id

/-- What an element of an array literal is stored as, in slots of a scalar type. -/
inductive ElementPart (arena : Arena) (blocks : List DataBlock) (s : Scalar) :
    ExprId → DataPart → Prop
  | literal {id : ExprId} {e : Expr} {b : DataBlock} (hid : arena.expr? id = some e)
      (hliteral : e.isDataLiteral = true) (hblock : b ∈ blocks) :
      ElementPart arena blocks s id (.address b.address)
  | constant {id : ExprId} {c : Constant} (hid : Constant.ofExpr? arena id = some c) :
      ElementPart arena blocks s id (.fixed (c.encode s))

theorem ElementPart.mono {arena : Arena} {blocks blocks' : List DataBlock} {s : Scalar}
    {id : ExprId}
    {part : DataPart} (h : ElementPart arena blocks s id part) (hsub : blocks ⊆ blocks') :
    ElementPart arena blocks' s id part := by
  cases h with
  | literal hid hliteral hblock => exact .literal hid hliteral (hsub hblock)
  | constant hid => exact .constant hid

/-- What a block of an image is made of. -/
inductive Composed (arena : Arena) (structs : Table String StructLayout) (d : DataImage) :
    BlockOrigin → List DataPart → Prop
  | header {content : String} {data : Nat} (hdata : d.interned.get? content = some data) :
      Composed arena structs d (.header content)
        [.fixed (littleEndian 4 content.utf8ByteSize), .address data]
  | array {id : ExprId} {elements : List ExprId} {stated : Option Ty} {s : Scalar}
      {parts : List DataPart} (hid : arena.expr? id = some (.array elements stated))
      (hparts : List.Forall₂ (ElementPart arena d.blocks s) elements parts) :
      Composed arena structs d (.literal id) parts
  | struct {id : ExprId} {name : String} {fields : List FieldInit} {bytes : List UInt8}
      (hid : arena.expr? id = some (.struct name fields))
      (hbytes : Placement.encodeStruct arena structs name fields = .ok bytes) :
      Composed arena structs d (.literal id) [.fixed bytes]

theorem Composed.mono {arena : Arena} {structs : Table String StructLayout} {d d' : DataImage}
    {origin : BlockOrigin} {parts : List DataPart} (h : Composed arena structs d origin parts)
    (hext : d.Extended d') : Composed arena structs d' origin parts := by
  cases h with
  | header hdata => exact .header (hext.interned _ _ hdata)
  | array hid hparts => exact .array hid (hparts.imp fun _ _ hpart => hpart.mono hext.blocks)
  | struct hid hbytes => exact .struct hid hbytes

/-! ## Corresponding images -/

def DataBlock.shift (distance : Nat) (b : DataBlock) : DataBlock :=
  { b with address := b.address + distance }

section Correspondence

variable (arena : Arena) (structs : Table String StructLayout) (distance : Nat)

/-- The second block is the first at some distance, with every address in it shifted as much. -/
structure DataBlock.Moved (d : DataImage) (origin : BlockOrigin) (b b' : DataBlock) : Prop where
  address : b'.address = b.address + distance
  bytes : ∃ parts, Composed arena structs d origin parts ∧ b.bytes = parts.flatMap DataPart.bytes ∧
    b'.bytes = (parts.map (DataPart.shift distance)).flatMap DataPart.bytes

/-- A block with this origin stands at this address of the first image, and in the second at the
address shifted. -/
def DataImage.Corresponds (d d' : DataImage) (origin : BlockOrigin) (address : Nat) : Prop :=
  ∃ b ∈ d.blocks, ∃ b' ∈ d'.blocks, b.address = address ∧
    b.Moved arena structs distance d origin b'

/-- The second image is the first at some distance. -/
structure DataImage.Relocated (d d' : DataImage) : Prop where
  base : d'.base = d.base + distance
  cursor : d'.cursor = d.cursor + distance
  interned : d'.interned = d.interned.map (· + distance)
  headers : d'.headers = d.headers.map (· + distance)
  strings : d'.strings = d.strings.map (DataBlock.shift distance)
  blocks : List.Forall₂ (fun b b' => ∃ origin, b.Moved arena structs distance d origin b')
    d.blocks d'.blocks
  headed : ∀ content address, d.headers.get? content = some address →
    DataImage.Corresponds arena structs distance d d' (.header content) address

/-- The second state of a walk is the first at some distance. -/
structure Placement.Relocated (p p' : Placement) : Prop where
  data : p.data.Relocated arena structs distance p'.data
  literals : p'.literals = p.literals.map (· + distance)
  expected : p'.expected = p.expected
  located : ∀ id address, p.literals.get? id = some address →
    DataImage.Corresponds arena structs distance p.data p'.data (.of arena id) address

end Correspondence

section Steps

variable {arena : Arena} {structs : Table String StructLayout} {distance : Nat}
  {origin : BlockOrigin} {address : Nat}

theorem DataBlock.Moved.mono {d e : DataImage} {b b' : DataBlock}
    (h : b.Moved arena structs distance d origin b') (hext : d.Extended e) :
    b.Moved arena structs distance e origin b' := by
  obtain ⟨parts, hcomposed, hbytes⟩ := h.bytes
  exact ⟨h.address, parts, hcomposed.mono hext, hbytes⟩

namespace DataImage

theorem Corresponds.mono {d d' e e' : DataImage}
    (h : Corresponds arena structs distance d d' origin address) (hext : d.Extended e)
    (hext' : d'.Extended e') : Corresponds arena structs distance e e' origin address := by
  obtain ⟨b, hb, b', hb', haddress, hmoved⟩ := h
  exact ⟨b, hext.blocks hb, b', hext'.blocks hb', haddress, hmoved.mono hext⟩

/-! ## Requests -/

theorem alignUp_add {n align : Nat} (hpos : 0 < align) (h : align ∣ distance) :
    alignUp (n + distance) align = alignUp n align + distance := by
  obtain ⟨k, rfl⟩ := h
  have hsum : n + align * k + align - 1 = n + align - 1 + align * k := by omega
  unfold alignUp
  rw [hsum, Nat.add_mul_div_left _ _ hpos, Nat.add_mul, Nat.mul_comm k]

variable {d d' e' : DataImage}

/-- What can be reserved further up can be reserved here. -/
theorem reserve_relocated {size align address' : Nat} (hcursor : d'.cursor = d.cursor + distance)
    (halign : align ∣ distance) (h : d'.reserve size align = .ok (address', e')) :
    ∃ address, address' = address + distance ∧
      d.reserve size align = .ok (address, { d with cursor := address + size }) := by
  unfold reserve at h ⊢
  split at h
  · cases h
  · next hpos =>
    dsimp only at h
    split at h
    · cases h
    · next hlimit =>
      cases h
      have hup := alignUp_add (n := d.cursor) (Nat.pos_of_ne_zero hpos) halign
      rw [hcursor, hup] at hlimit ⊢
      refine ⟨alignUp d.cursor align, rfl, ?_⟩
      rw [if_neg hpos, if_neg (by omega)]

/-- A block made of the same parts. -/
theorem addBlock_relocated {align address' : Nat} {parts : List DataPart}
    (h : d.Relocated arena structs distance d') (halign : align ∣ distance)
    (hcomposed : Composed arena structs d origin parts)
    (hd' : d'.addBlock ((parts.map (DataPart.shift distance)).flatMap DataPart.bytes) align =
      .ok (address', e')) :
    ∃ address e, address' = address + distance ∧
      d.addBlock (parts.flatMap DataPart.bytes) align = .ok (address, e) ∧
      e.Relocated arena structs distance e' ∧
      Corresponds arena structs distance e e' origin address := by
  have hext' := Extended.addBlock hd'
  simp only [addBlock, bind_ok, pure_ok] at hd'
  obtain ⟨⟨_, reserved'⟩, hreserve', hd'⟩ := hd'
  cases hd'
  -- A part is as long further up as it is here, so the same space is asked for.
  obtain ⟨-, rfl⟩ := reserve_ok hreserve'
  rw [DataPart.length_flatMap_shift] at hreserve'
  obtain ⟨address, rfl, hreserve⟩ := reserve_relocated h.cursor halign hreserve'
  have hd : d.addBlock (parts.flatMap DataPart.bytes) align = .ok (address, { d with
      cursor := address + (parts.flatMap DataPart.bytes).length
      blocks := d.blocks ++ [⟨address, parts.flatMap DataPart.bytes⟩] }) := by
    simp only [addBlock, hreserve, ok_bind, pure_ok]
  have hext := Extended.addBlock hd
  have hmoved : DataBlock.Moved arena structs distance d origin
      ⟨address, parts.flatMap DataPart.bytes⟩
      ⟨address + distance, (parts.map (DataPart.shift distance)).flatMap DataPart.bytes⟩ :=
    ⟨rfl, parts, hcomposed, rfl, rfl⟩
  have hnew := hmoved.mono hext
  refine ⟨address, _, rfl, hd, { h with
    cursor := ?_
    blocks := ?_
    headed := fun content a ha => (h.headed content a ha).mono hext hext' }, ?_⟩
  · simp only [DataPart.length_flatMap_shift]
    omega
  · refine List.rel_append (h.blocks.imp ?_) (.cons ⟨origin, hnew⟩ .nil)
    rintro b b' ⟨origin, hmoved⟩
    exact ⟨origin, hmoved.mono hext⟩
  · exact ⟨_, List.mem_append_right _ List.mem_cons_self, _,
      List.mem_append_right _ List.mem_cons_self, rfl, hnew⟩

/-- A string is known further up exactly when it is known here. -/
theorem intern_relocated {content : String} {address' : Nat}
    (h : d.Relocated arena structs distance d') (hd' : d'.intern content = .ok (address', e')) :
    ∃ address e, address' = address + distance ∧ d.intern content = .ok (address, e) ∧
      e.Relocated arena structs distance e' := by
  have hext' := Extended.intern hd'
  have hget : d'.interned.get? content = (d.interned.get? content).map (· + distance) := by
    rw [h.interned, Table.get?_map]
  unfold intern at hd'
  rw [hget] at hd'
  -- Neither side places a string twice, and both know the same ones.
  cases hknown : d.interned.get? content with
  | some address =>
    rw [hknown] at hd'
    cases hd'
    exact ⟨address, d, rfl, by simp only [intern, hknown], h⟩
  | none =>
    rw [hknown] at hd'
    simp only [Option.map_none, bind_ok, pure_ok] at hd'
    obtain ⟨⟨_, reserved'⟩, hreserve', hd'⟩ := hd'
    cases hd'
    obtain ⟨-, rfl⟩ := reserve_ok hreserve'
    obtain ⟨address, rfl, hreserve⟩ := reserve_relocated h.cursor (Nat.one_dvd _) hreserve'
    have hd : d.intern content = .ok (address, { d with
        cursor := address + max content.toUTF8.toList.length 1
        strings := d.strings ++ [⟨address, content.toUTF8.toList⟩]
        interned := d.interned.set content address }) := by
      simp only [intern, hknown, hreserve, ok_bind, pure_ok]
    have hext := Extended.intern hd
    refine ⟨address, _, rfl, hd, { h with
      cursor := ?_
      interned := ?_
      strings := ?_
      blocks := h.blocks.imp ?_
      headed := fun content a ha => (h.headed content a ha).mono hext hext' }⟩
    · simp only
      omega
    · simp only [h.interned, Table.map_set]
    · simp only [h.strings, List.map_append, List.map_cons, List.map_nil, DataBlock.shift]
    · rintro b b' ⟨origin, hmoved⟩
      exact ⟨origin, hmoved.mono hext⟩

theorem header_relocated {content : String} {address' : Nat}
    (h : d.Relocated arena structs distance d') (hdistance : 4 ∣ distance)
    (hd' : d'.header content = .ok (address', e')) :
    ∃ address e, address' = address + distance ∧ d.header content = .ok (address, e) ∧
      e.Relocated arena structs distance e' ∧
      Corresponds arena structs distance e e' (.header content) address := by
  have hget : d'.headers.get? content = (d.headers.get? content).map (· + distance) := by
    rw [h.headers, Table.get?_map]
  rcases header_ok hd' with
    ⟨hknown', rfl⟩ | ⟨hnew', data', stored', headed', hintern', hblock', rfl⟩
  · rw [hget] at hknown'
    obtain ⟨address, hknown, rfl⟩ := Option.map_eq_some_iff.mp hknown'
    exact ⟨address, d, rfl, by simp only [header, hknown], h, h.headed content address hknown⟩
  · rw [hget, Option.map_eq_none_iff] at hnew'
    obtain ⟨data, stored, rfl, hintern, hstored⟩ := intern_relocated h hintern'
    -- A header is a length, which stays, and the address of the text, which moves along.
    have hcomposed : Composed arena structs stored (.header content)
        [.fixed (littleEndian 4 content.utf8ByteSize), .address data] :=
      .header (interned_of_intern hintern)
    obtain ⟨address, headed, rfl, hblock, hheaded, hcorresponds⟩ :=
      addBlock_relocated hstored hdistance hcomposed
        (by simpa [DataPart.shift, DataPart.bytes] using hblock')
    have hd : d.header content =
        .ok (address, { headed with headers := headed.headers.set content address }) := by
      simp only [DataPart.bytes, List.flatMap_cons, List.flatMap_nil, List.append_nil] at hblock
      simp only [header, hnew', hintern, hblock, ok_bind, pure_ok]
    -- Storing the text and the block adds no header, so this one is still new.
    have hfree : headed.headers.get? content = none := by
      rw [headers_of_addBlock hblock, headers_of_intern hintern, hnew']
    have hfree' : headed'.headers.get? content = none := by
      rw [hheaded.headers, Table.get?_map, hfree, Option.map_none]
    have hext := Extended.setHeader hfree address
    have hext' := Extended.setHeader hfree' (address + distance)
    refine ⟨address, _, rfl, hd, { hheaded with
      headers := ?_
      blocks := hheaded.blocks.imp ?_
      headed := fun c a ha => ?_ }, hcorresponds.mono hext hext'⟩
    · simp only [hheaded.headers, Table.map_set]
    · rintro b b' ⟨origin, hmoved⟩
      exact ⟨origin, hmoved.mono hext⟩
    · rw [Table.get?_set] at ha
      split at ha
      · next heq =>
        cases ha
        exact heq ▸ hcorresponds.mono hext hext'
      · exact (hheaded.headed c a ha).mono hext hext'

end DataImage

end Steps

/-! ## Placing literals -/

theorem Scalar.slot_dvd (s : Scalar) : min s.size 4 ∣ 4 := by
  cases s <;> decide

namespace Placement

variable {arena : Arena} {structs : Table String StructLayout} {distance : Nat}

section Encoding

variable {literals : Table ExprId Nat} {blocks : List DataBlock}
  (hblocks : ∀ id address, literals.get? id = some address → ∃ b ∈ blocks, b.address = address)
include hblocks

theorem encodeElement_relocated {ty : Ty} {s : Scalar} {id : ExprId} {bytes' : List UInt8}
    (h : encodeElement arena (literals.map (· + distance)) ty s id = .ok bytes') :
    ∃ part, ElementPart arena blocks s id part ∧ bytes' = (part.shift distance).bytes ∧
      encodeElement arena literals ty s id = .ok part.bytes := by
  unfold encodeElement at h ⊢
  cases hid : arena.expr? id with
  | none => simp [hid] at h
  | some e =>
    -- A literal is held by its address. Everything else is a constant, the same on both sides.
    cases hliteral : e.isDataLiteral with
    | true =>
      simp only [hid, hliteral, if_true, Table.get?_map] at h
      cases haddress : literals.get? id with
      | none => simp [haddress] at h
      | some address =>
        simp only [haddress, Option.map_some] at h
        split at h
        · cases h
        · next hslot =>
          cases h
          obtain ⟨b, hb, rfl⟩ := hblocks id address haddress
          refine ⟨.address b.address, .literal hid hliteral hb, rfl, ?_⟩
          simp only [hliteral, if_true, if_neg hslot, DataPart.bytes]
    | false =>
      simp only [hid, hliteral] at h
      cases hconstant : Constant.ofExpr? arena id with
      | none => simp [hconstant] at h
      | some c =>
        simp only [hconstant] at h
        cases h
        exact ⟨.fixed (c.encode s), .constant hconstant, rfl, by simp [hliteral, DataPart.bytes]⟩

/-- The parts of an array literal are those of its elements. -/
theorem encodeElements_relocated {ty : Ty} {s : Scalar} {elements : List ExprId}
    {encoded : List (List UInt8)}
    (h : elements.mapM (encodeElement arena (literals.map (· + distance)) ty s) = .ok encoded) :
    ∃ parts, List.Forall₂ (ElementPart arena blocks s) elements parts ∧
      encoded = (parts.map (DataPart.shift distance)).map DataPart.bytes ∧
      elements.mapM (encodeElement arena literals ty s) = .ok (parts.map DataPart.bytes) := by
  simp only [mapM_ok] at h ⊢
  induction h with
  | nil => exact ⟨[], .nil, rfl, .nil⟩
  | cons hfirst _ ih =>
    obtain ⟨part, hpart, rfl, hencode⟩ := encodeElement_relocated hblocks hfirst
    obtain ⟨parts, hparts, rfl, hencodes⟩ := ih
    exact ⟨part :: parts, .cons hpart hparts, rfl, .cons hencode hencodes⟩

theorem encodeArray_relocated {ty : Ty} {elements : List ExprId} {bytes' : List UInt8} {align : Nat}
    (h : encodeArray arena (literals.map (· + distance)) ty elements = .ok (bytes', align)) :
    ∃ s parts, List.Forall₂ (ElementPart arena blocks s) elements parts ∧
      bytes' = (parts.map (DataPart.shift distance)).flatMap DataPart.bytes ∧
      encodeArray arena literals ty elements = .ok (parts.flatMap DataPart.bytes, align) ∧
      align ∣ 4 := by
  unfold encodeArray at h ⊢
  cases hs : ty.storage? with
  | none => simp [hs] at h
  | some s =>
    simp only [hs, bind_ok, pure_ok] at h ⊢
    obtain ⟨encoded, hencoded, h⟩ := h
    cases h
    obtain ⟨parts, hparts, rfl, hencode⟩ := encodeElements_relocated hblocks hencoded
    refine ⟨s, parts, hparts, List.flatMap_def.symm, ⟨_, hencode, ?_⟩, s.slot_dvd⟩
    rw [List.flatMap_def]

end Encoding

section Walk

variable (arena structs distance)

/-- What the step does from a state, it does from the state that corresponds to it. -/
def Relocates (x : PlaceM Unit) : Prop :=
  ∀ p p' q', p.Relocated arena structs distance p' → x p' = .ok ((), q') →
    ∃ q, x p = .ok ((), q) ∧ q.Relocated arena structs distance q'

theorem relocates_lasting : PlaceM.Lasting (Relocates arena structs distance) where
  pure := by
    intro p p' q' h hq'
    cases hq'
    exact ⟨p, rfl, h⟩
  andThen := by
    intro x y hx hy p p' q' h hq'
    obtain ⟨⟨⟩, r', hr', hq'⟩ := PlaceM.bind_ok.mp hq'
    obtain ⟨r, hr, h⟩ := hx p p' r' h hr'
    obtain ⟨q, hq, h⟩ := hy r r' q' h hq'
    exact ⟨q, PlaceM.bind_ok.mpr ⟨(), r, hr, hq⟩, h⟩
  dangling := by
    intro node p p' q' _ hq'
    cases hq'

variable {arena structs distance}

theorem expect_relocates (id : ExprId) (elementTy : Ty) :
    Relocates arena structs distance (expect id elementTy) := by
  intro p p' q' h hq'
  cases hq'
  refine ⟨{ p with expected := p.expected.set id elementTy }, rfl, { h with expected := ?_ }⟩
  simp only [h.expected]

theorem expectElements_relocates (elements : List ExprId) (elementTy : Ty) :
    Relocates arena structs distance (expectElements arena elements elementTy) := by
  unfold expectElements
  split
  · exact (relocates_lasting arena structs distance).forM fun e _ => expect_relocates e _
  · exact (relocates_lasting arena structs distance).pure

/-- Recording a new place for a literal. -/
theorem Relocated.setLiteral {p p' : Placement} (h : p.Relocated arena structs distance p')
    {d d' : DataImage} (hext : p.data.Extended d) (hext' : p'.data.Extended d')
    (hd : d.Relocated arena structs distance d') {id : ExprId} {address : Nat}
    (haddress : DataImage.Corresponds arena structs distance d d' (.of arena id) address) :
    Relocated arena structs distance
      { p with data := d, literals := p.literals.set id address }
      { p' with data := d', literals := p'.literals.set id (address + distance) } := by
  refine { data := hd, literals := ?_, expected := h.expected, located := fun other a ha => ?_ }
  · simp only [h.literals, Table.map_set]
  · rw [Table.get?_set] at ha
    split at ha
    · next heq =>
      cases ha
      exact heq ▸ haddress
    · exact (h.located other a ha).mono hext hext'

theorem place_relocates (hdistance : 4 ∣ distance) {id : ExprId} {parts : List DataPart}
    {align : Nat} (halign : align ∣ 4) {p p' q' : Placement}
    (h : p.Relocated arena structs distance p')
    (hcomposed : Composed arena structs p.data (.of arena id) parts)
    (hq' : place id ((parts.map (DataPart.shift distance)).flatMap DataPart.bytes) align p' =
      .ok ((), q')) :
    ∃ q, place id (parts.flatMap DataPart.bytes) align p = .ok ((), q) ∧
      q.Relocated arena structs distance q' := by
  obtain ⟨_, data', hblock', rfl⟩ := place_eq_ok hq'
  obtain ⟨address, data, rfl, hblock, hdata, hcorresponds⟩ :=
    DataImage.addBlock_relocated h.data (Nat.dvd_trans halign hdistance) hcomposed hblock'
  refine ⟨{ p with data, literals := p.literals.set id address }, ?_,
    h.setLiteral (.addBlock hblock) (.addBlock hblock') hdata hcorresponds⟩
  exact bind_ok.mpr ⟨(address, data), mapError_ok.mpr hblock, rfl⟩

variable (hdistance : 4 ∣ distance)
include hdistance

theorem placeString_relocates {id : ExprId} {content : String}
    (hid : arena.expr? id = some (.str content)) :
    Relocates arena structs distance (placeString id content) := by
  intro p p' q' h hq'
  obtain ⟨_, data', hheader', rfl⟩ := placeString_ok hq'
  obtain ⟨address, data, rfl, hheader, hdata, hcorresponds⟩ :=
    DataImage.header_relocated h.data hdistance hheader'
  have horigin : BlockOrigin.of arena id = .header content := by simp [BlockOrigin.of, hid]
  refine ⟨{ p with data, literals := p.literals.set id address }, ?_,
    h.setLiteral (.header hheader) (.header hheader') hdata (horigin ▸ hcorresponds)⟩
  exact bind_ok.mpr ⟨(address, data), mapError_ok.mpr hheader, rfl⟩

theorem placeArray_relocates {id : ExprId} {elements : List ExprId} {stated : Option Ty}
    (hid : arena.expr? id = some (.array elements stated)) {walk : PlaceM Unit}
    (hwalk : Relocates arena structs distance walk) :
    Relocates arena structs distance (placeArray arena id elements stated walk) := by
  intro p p' q' h hq'
  obtain ⟨ty, e', w', bytes', align, hty, hexpect', hwalk', hencode', hplace'⟩ := placeArray_ok hq'
  obtain ⟨e, hexpect, he⟩ := expectElements_relocates elements ty p p' e' h hexpect'
  obtain ⟨w, hwalk, hw⟩ := hwalk e e' w' he hwalk'
  have hblocks (id : ExprId) (address : Nat) (hget : w.literals.get? id = some address) :
      ∃ b ∈ w.data.blocks, b.address = address := by
    obtain ⟨b, hb, -, -, haddress, -⟩ := hw.located id address hget
    exact ⟨b, hb, haddress⟩
  rw [hw.literals] at hencode'
  obtain ⟨s, parts, hparts, rfl, hencode, halign⟩ := encodeArray_relocated hblocks hencode'
  have horigin : BlockOrigin.of arena id = .literal id := by simp [BlockOrigin.of, hid]
  obtain ⟨q, hplace, hq⟩ :=
    place_relocates hdistance halign hw (horigin ▸ .array hid hparts) hplace'
  refine ⟨q, ?_, hq⟩
  rw [placeArray_eq arena id elements stated walk p (hty.trans (by rw [h.expected])).symm]
  refine PlaceM.bind_ok.mpr ⟨(), e, hexpect, PlaceM.bind_ok.mpr ⟨(), w, hwalk, ?_⟩⟩
  rw [PlaceM.get_bind, hencode]
  exact hplace

theorem visitor_expr_relocates (id : ExprId) (e : Expr) {walk : PlaceM Unit}
    (hid : arena.expr? id = some e) (hwalk : Relocates arena structs distance walk) :
    Relocates arena structs distance ((visitor arena structs).expr id e walk) := by
  cases e with
  | str content => exact placeString_relocates hdistance hid
  | array elements stated => exact placeArray_relocates hdistance hid hwalk
  | struct name fields =>
    intro p p' q' h hq'
    obtain ⟨bytes, _, hlift, hq'⟩ := PlaceM.bind_ok.mp hq'
    obtain ⟨hbytes, rfl⟩ := PlaceM.lift_ok hlift
    have horigin : BlockOrigin.of arena id = .literal id := by simp [BlockOrigin.of, hid]
    have hcomposed : Composed arena structs p.data (.of arena id) [.fixed bytes] :=
      horigin ▸ .struct hid hbytes
    obtain ⟨q, hplace, hq⟩ := place_relocates hdistance (Nat.dvd_refl 4) h hcomposed
      (by simpa [DataPart.shift, DataPart.bytes] using hq')
    refine ⟨q, PlaceM.bind_ok.mpr ⟨bytes, p, by rw [hbytes]; rfl, ?_⟩, hq⟩
    simpa [DataPart.bytes] using hplace
  | _ => exact hwalk

theorem visitModule_relocates (m : Module) :
    Relocates m.arena structs distance ((visitor m.arena structs).visitModule m) :=
  visitModule_lasting (relocates_lasting m.arena structs distance)
    (fun id e _ hid hwalk => visitor_expr_relocates hdistance id e hid hwalk) expect_relocates

end Walk

end Placement

end WasmBackend
