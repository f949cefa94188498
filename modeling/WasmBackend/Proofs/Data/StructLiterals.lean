import WasmBackend.Proofs.Data.Structs

/-!
# Struct declarations, layouts and literals

A layout lists the fields of its declaration, each where the one before it ends, so every byte of
the struct belongs to one member (`StructLayout.existsUnique_member`).

Initialisers are written one after the other into bytes that start out as zeros. Nothing is written
behind the end, whatever was written before, and the literal fails for what one of its initialisers
asks for or because the bytes have no room, and for nothing else. Which value a member shows is the
subject of `Data.Structs`.
-/

namespace WasmBackend

open Compiled

theorem Compiled.exists_error_iff {α : Type} {x : Compiled α} :
    (∃ e, x = .error e) ↔ ¬ ∃ a, x = .ok a := by
  cases x <;> simp

/-! ## Layouts -/

namespace StructLayout

variable {name : String} {fields : List Binding} {exported : Bool} {layout : StructLayout}

/-- Every byte of a struct belongs to one member. -/
theorem existsUnique_member (h : ofFields name fields exported = .ok layout) {k : Nat}
    (hk : k < layout.size) :
    ∃! e, e ∈ layout.members.entries ∧ e.2.offset ≤ k ∧ k < e.2.offset + e.2.size := by
  have hspread := (ofFields_fits h).spread
  obtain ⟨-, -, rfl⟩ := ofFields_eq_ok.mp h
  obtain ⟨e, he, hinside⟩ := exists_tile (Nat.zero_le k) (by simpa using hk)
  refine ⟨e, ⟨he, hinside⟩, ?_⟩
  rintro other ⟨hother, hlow, hhigh⟩
  have hname : other.1 = e.1 := by
    by_contra hne
    have happart := hspread.apart hother he hne
    rw [← size_of_mem_tile he, ← size_of_mem_tile hother] at happart
    omega
  have hget := (Table.get?_eq_some_iff hspread.keys_nodup).mpr (show (e.1, e.2) ∈ _ from he)
  have hget' := (Table.get?_eq_some_iff hspread.keys_nodup).mpr
    (show (other.1, other.2) ∈ _ from hother)
  rw [hname, hget] at hget'
  exact Prod.ext hname (Option.some.inj hget').symm

end StructLayout

/-! ## Initialisers -/

/-- A number or a character, or a number under one minus sign. -/
inductive Arena.Numeral (arena : Arena) (id : ExprId) : Constant → Prop
  | int {value : Int64} (hid : arena.expr? id = some (.int value)) : Numeral arena id (.int value)
  | float {value : Binary64} (hid : arena.expr? id = some (.float value)) :
      Numeral arena id (.float value)
  | char {value : Char} (hid : arena.expr? id = some (.char value)) :
      Numeral arena id (.int (Int64.ofInt value.toNat))
  | negInt {operand : ExprId} {value : Int64} (hid : arena.expr? id = some (.unary .neg operand))
      (hoperand : arena.expr? operand = some (.int value)) : Numeral arena id (.int (-value))
  | negFloat {operand : ExprId} {value : Binary64}
      (hid : arena.expr? id = some (.unary .neg operand))
      (hoperand : arena.expr? operand = some (.float value)) : Numeral arena id (.float (-value))

theorem Ty.storage?_eq_none {ty : Ty} : ty.storage? = none ↔ ty = .void := by
  cases ty <;> simp [storage?]

namespace Placement

variable {arena : Arena} {layout : StructLayout} {id : ExprId}

theorem fieldConstant?_eq_some {c : Constant} :
    fieldConstant? arena id = some c ↔ arena.Numeral id c := by
  constructor
  · intro h
    unfold fieldConstant? at h
    split at h
    · cases h
    · next e hbool hid =>
      have hc : Constant.ofExpr? arena id = some c := by
        split at h
        · cases h
        · exact h
      -- Booleans are constants as well, but fields do not take them.
      unfold Constant.ofExpr? at hc
      split at hc
      · next hint => exact Option.some.inj hc ▸ .int hint
      · next hfloat => exact Option.some.inj hc ▸ .float hfloat
      · next value htruth => exact absurd (hid.symm.trans htruth) (by simpa using hbool value)
      · next hchar => exact Option.some.inj hc ▸ .char hchar
      · next hneg =>
        split at hc
        · next hoperand => exact Option.some.inj hc ▸ .negInt hneg hoperand
        · next hoperand => exact Option.some.inj hc ▸ .negFloat hneg hoperand
        · cases hc
      · cases hc
    · cases h
  · rintro (hid | hid | hid | ⟨hid, hoperand⟩ | ⟨hid, hoperand⟩) <;>
      simp [fieldConstant?, Constant.ofExpr?, Expr.isDataLiteral, *]

/-- What an initialiser asks for is there: a member that can be stored, and a constant for it. -/
def Accepts (arena : Arena) (layout : StructLayout) (field : FieldInit) : Prop :=
  ∃ member c s, layout.members.get? field.name = some member ∧
    fieldConstant? arena field.value = some c ∧ member.ty.storage? = some s

theorem not_accepts_iff {field : FieldInit} : ¬ Accepts arena layout field ↔
    layout.members.get? field.name = none ∨ (∀ c, ¬ arena.Numeral field.value c) ∨
      ∃ member, layout.members.get? field.name = some member ∧ member.ty = .void := by
  simp only [Accepts, fieldConstant?_eq_some, ← Ty.storage?_eq_none]
  cases hmember : layout.members.get? field.name with
  | none => simp
  | some member =>
    cases hs : member.ty.storage? with
    | none => simp [hs]
    | some s => simp [hs]

theorem exists_encodeField_iff {name : String} {field : FieldInit} (bytes : List UInt8) :
    (∃ bytes', encodeField arena layout name bytes field = .ok bytes') ↔
      Accepts arena layout field := by
  constructor
  · rintro ⟨bytes', h⟩
    obtain ⟨member, c, s, hmember, hc, hs, -⟩ := encodeField_ok h
    exact ⟨member, c, s, hmember, hc, hs⟩
  · rintro ⟨member, c, s, hmember, hc, hs⟩
    cases hid : arena.expr? field.value with
    | none => simp [fieldConstant?, hid] at hc
    | some e =>
      refine ⟨overwrite bytes member.offset (c.encode s), ?_⟩
      simp only [encodeField, StructLayout.member, hmember, ok_bind, hid, hc, hs]

/-- A literal is encoded if each of its initialisers can be. -/
theorem exists_encodeFields_iff {name : String} {fields : List FieldInit} (bytes : List UInt8) :
    (∃ bytes', fields.foldlM (encodeField arena layout name) bytes = .ok bytes') ↔
      ∀ field ∈ fields, Accepts arena layout field := by
  induction fields generalizing bytes with
  | nil => exact ⟨fun _ => by simp, fun _ => ⟨bytes, rfl⟩⟩
  | cons field rest ih =>
    simp only [List.foldlM_cons, bind_ok, List.forall_mem_cons]
    constructor
    · rintro ⟨bytes', next, hnext, hrest⟩
      exact ⟨(exists_encodeField_iff bytes).mp ⟨next, hnext⟩, (ih next).mp ⟨bytes', hrest⟩⟩
    · rintro ⟨hfield, hrest⟩
      obtain ⟨next, hnext⟩ := (exists_encodeField_iff bytes).mpr hfield
      obtain ⟨bytes', hbytes'⟩ := (ih next).mpr hrest
      exact ⟨bytes', next, hnext, hbytes'⟩

/-- Whatever was written before, the next initialiser stays inside the struct. -/
theorem encodeField_inside (hfits : layout.Fits) {name : String} {done : List FieldInit}
    {bytes : List UInt8} {member : MemberLayout} {field : String} {s : Scalar}
    (hdone : done.foldlM (encodeField arena layout name) (List.replicate layout.size 0) = .ok bytes)
    (hmember : layout.members.get? field = some member) (hs : member.ty.storage? = some s)
    (c : Constant) : member.offset + (c.encode s).length ≤ bytes.length := by
  rw [(encodeFields_encodes hfits (encodes_zero hfits) hdone).length, Constant.length_encode,
    Ty.storage?_size hs]
  exact hfits.within _ (Table.mem_of_get? hmember)

end Placement

/-! ## Literals -/

namespace FieldInit

variable {arena : Arena} {fields : List FieldInit} {member : String}

/-- The last initialiser of a member gives its value. -/
theorem given_reverse_of_last {before after : List FieldInit} {field : FieldInit}
    (hfields : fields = before ++ field :: after) (hlast : field.name ∉ after.map FieldInit.name)
    {c : Constant} (hc : Placement.fieldConstant? arena field.value = some c) :
    given arena fields.reverse field.name = c := by
  subst hfields
  have hafter : after.reverse.find? (fun other => other.name == field.name) = none := by
    refine List.find?_eq_none.mpr fun other hother heq => hlast ?_
    rw [← beq_iff_eq.mp heq]
    exact List.mem_map_of_mem (List.mem_reverse.mp hother)
  simp [given, List.find?_append, hafter, hc]

theorem given_of_not_mem (h : member ∉ fields.map FieldInit.name) :
    given arena fields member = .int 0 := by
  have hnone : fields.find? (fun field => field.name == member) = none := by
    refine List.find?_eq_none.mpr fun field hfield heq => h ?_
    rw [← beq_iff_eq.mp heq]
    exact List.mem_map_of_mem hfield
  simp [given, hnone]

end FieldInit

namespace StructLayout

/-- The layout has the fields in their order and without gaps. -/
structure Tiles (layout : StructLayout) (fields : List Binding) : Prop where
  size : layout.size = Binding.totalSize fields
  count : layout.members.entries.length = fields.length
  members : ∀ (i : Nat) (field : Binding), fields[i]? = some field →
    layout.members.entries[i]? = some
      (field.name, ⟨Binding.totalSize (fields.take i), field.ty.size, field.ty⟩)
  covers : ∀ k < layout.size,
    ∃! e, e ∈ layout.members.entries ∧ e.2.offset ≤ k ∧ k < e.2.offset + e.2.size

/-- The bytes of a literal: for each member its last initialiser, and zeros elsewhere. -/
structure Shows (layout : StructLayout) (arena : Arena) (inits : List FieldInit)
    (bytes : List UInt8) : Prop where
  length : bytes.length = layout.size
  last : ∀ before init after, inits = before ++ init :: after →
    init.name ∉ after.map FieldInit.name → ∃ member c s,
      layout.members.get? init.name = some member ∧ arena.Numeral init.value c ∧
      member.ty.storage? = some s ∧ DataBlock.HasAt bytes member.offset (c.encode s)
  zero : ∀ k < layout.size,
    (∀ e ∈ layout.members.entries, e.1 ∈ inits.map FieldInit.name →
      ¬ (e.2.offset ≤ k ∧ k < e.2.offset + e.2.size)) → bytes[k]? = some 0

variable {name : String} {fields : List Binding} {exported : Bool} {layout : StructLayout}

theorem ofFields_tiles (h : ofFields name fields exported = .ok layout) : layout.Tiles fields := by
  have hcovers {k : Nat} (hk : k < layout.size) := existsUnique_member h hk
  obtain ⟨-, -, rfl⟩ := ofFields_eq_ok.mp h
  refine ⟨rfl, length_tile 0 fields, fun i field hfield => ?_, fun k hk => hcovers hk⟩
  rw [getElem?_tile, hfield]
  simp only [Option.map_some, Nat.zero_add]

theorem shows_of_encoded (h : ofFields name fields exported = .ok layout) {arena : Arena}
    {literal : String} {inits : List FieldInit} {bytes : List UInt8}
    (hbytes : inits.foldlM (Placement.encodeField arena layout literal)
      (List.replicate layout.size 0) = .ok bytes) : layout.Shows arena inits bytes := by
  have hfits := ofFields_fits h
  have hencodes := Placement.encodeFields_encodes hfits (Placement.encodes_zero hfits) hbytes
  rw [List.append_nil] at hencodes
  have haccepts := (Placement.exists_encodeFields_iff _).mp ⟨bytes, hbytes⟩
  refine ⟨hencodes.length, fun before init after hinits hlast => ?_, fun k hk hother => ?_⟩
  · obtain ⟨member, c, s, hmember, hc, hs⟩ := haccepts init (by simp [hinits])
    refine ⟨member, c, s, hmember, Placement.fieldConstant?_eq_some.mp hc, hs, ?_⟩
    have hpart := hencodes.members _ (Table.mem_of_get? hmember) s hs
    rwa [FieldInit.given_reverse_of_last hinits hlast hc] at hpart
  -- Members leave no gaps, so a byte that was not given belongs to a member without initialiser.
  · obtain ⟨e, ⟨he, hlow, hhigh⟩, -⟩ := existsUnique_member h hk
    have hnot : e.1 ∉ inits.map FieldInit.name := fun hmem => hother e he hmem ⟨hlow, hhigh⟩
    have hsize : e.2.size = e.2.ty.size := by
      obtain ⟨-, -, rfl⟩ := ofFields_eq_ok.mp h
      exact size_of_mem_tile he
    cases hs : e.2.ty.storage? with
    -- A member without storage has no bytes.
    | none =>
      rw [Ty.storage?_eq_none.mp hs] at hsize
      simp only [Ty.size] at hsize
      omega
    | some s =>
      have hpart := hencodes.members e he s hs
      rw [FieldInit.given_of_not_mem (by simpa using hnot), Placement.encode_zero] at hpart
      have hscalar := Ty.storage?_size hs
      have hbyte := DataBlock.hasAt_iff.mp hpart (k - e.2.offset)
        (by rw [List.length_replicate]; omega)
      rw [Nat.add_sub_cancel' hlow, List.getElem?_replicate_of_lt (by omega)] at hbyte
      exact hbyte

end StructLayout

namespace DataImage

theorem exists_addBlock_iff {d : DataImage} {bytes : List UInt8} {align : Nat}
    (halign : align ≠ 0) : (∃ r, (d.addBlock bytes align).compiled = .ok r) ↔
      alignUp d.cursor align + bytes.length < addressSpace := by
  by_cases hroom : addressSpace ≤ alignUp d.cursor align + bytes.length
  · simp [Answer.compiled, mapError_ok, addBlock, reserve, halign, hroom,
      Nat.not_lt.mpr hroom]
  · simp [Answer.compiled, mapError_ok, addBlock, reserve, halign, hroom,
      Nat.lt_of_not_le hroom]

end DataImage

namespace Placement

variable {arena : Arena} {structs : Table String StructLayout} {layout : StructLayout}
  {name : String} {inits : List FieldInit} {id : ExprId} {walk : PlaceM Unit} {p : Placement}

/-- A struct literal is encoded, and then its bytes are stored. -/
theorem visitor_struct (hlayout : structs.get? name = some layout) :
    (visitor arena structs).expr id (.struct name inits) walk p =
      (inits.foldlM (encodeField arena layout name) (List.replicate layout.size 0) >>=
        fun bytes => place id bytes 4 p) := by
  have hencode : encodeStruct arena structs name inits =
      inits.foldlM (encodeField arena layout name) (List.replicate layout.size 0) := by
    simp only [encodeStruct, hlayout]
  rw [← hencode]
  show (liftM (encodeStruct arena structs name inits) >>= fun bytes => place id bytes 4) p = _
  cases encodeStruct arena structs name inits <;> rfl

theorem exists_placed_iff (hlayout : structs.get? name = some layout) (hfits : layout.Fits) :
    (∃ r, (visitor arena structs).expr id (.struct name inits) walk p = .ok r) ↔
      (∀ init ∈ inits, Accepts arena layout init) ∧
        DataImage.alignUp p.data.cursor 4 + layout.size < addressSpace := by
  rw [visitor_struct hlayout]
  have hlength {bytes : List UInt8} (hbytes : inits.foldlM (encodeField arena layout name)
      (List.replicate layout.size 0) = .ok bytes) : bytes.length = layout.size :=
    (encodeFields_encodes hfits (encodes_zero hfits) hbytes).length
  constructor
  · rintro ⟨r, h⟩
    obtain ⟨bytes, hbytes, hplace⟩ := bind_ok.mp h
    obtain ⟨block, hblock, -⟩ := bind_ok.mp hplace
    refine ⟨(exists_encodeFields_iff _).mp ⟨bytes, hbytes⟩, ?_⟩
    rw [← hlength hbytes]
    exact (DataImage.exists_addBlock_iff (by decide)).mp ⟨block, hblock⟩
  · rintro ⟨haccepts, hroom⟩
    obtain ⟨bytes, hbytes⟩ := (exists_encodeFields_iff _).mpr haccepts
    rw [← hlength hbytes] at hroom
    obtain ⟨block, hblock⟩ := (DataImage.exists_addBlock_iff (by decide)).mpr hroom
    exact ⟨_, bind_ok.mpr ⟨bytes, hbytes, bind_ok.mpr ⟨block, hblock, rfl⟩⟩⟩

end Placement

/-- A declaration has a layout exactly if its names are different and its sizes add up to an
address, and the layout has the fields in their order and without gaps. A literal over it is written
inside its bytes; it fails exactly for an initialiser that names no member, or has no number or
character for it, or names a member without storage, and for want of room. Otherwise it becomes one
new block of the struct's size, with the last initialiser of each member and zeros elsewhere. -/
theorem layouts_tile_and_literals_fill (declared : String) (fields : List Binding)
    (exported : Bool) :
    ((∃ layout, StructLayout.ofFields declared fields exported = .ok layout) ↔
      (fields.map Binding.name).Nodup ∧ Binding.totalSize fields < addressSpace) ∧
    ∀ layout, StructLayout.ofFields declared fields exported = .ok layout →
      layout.Tiles fields ∧
      ∀ (arena : Arena) (structs : Table String StructLayout) (name : String)
        (inits : List FieldInit), structs.get? name = some layout →
        (∀ done init rest bytes member s c, inits = done ++ init :: rest →
          done.foldlM (Placement.encodeField arena layout name) (List.replicate layout.size 0) =
            .ok bytes →
          layout.members.get? init.name = some member → member.ty.storage? = some s →
          member.offset + (Constant.encode s c).length ≤ bytes.length) ∧
        ∀ (id : ExprId) (walk : PlaceM Unit) (p : Placement),
          ((∃ e, (Placement.visitor arena structs).expr id (.struct name inits) walk p =
              .error e) ↔
            (∃ init ∈ inits, layout.members.get? init.name = none ∨
              (∀ c, ¬ arena.Numeral init.value c) ∨
              ∃ member, layout.members.get? init.name = some member ∧ member.ty = .void) ∨
            addressSpace ≤ DataImage.alignUp p.data.cursor 4 + layout.size) ∧
          ∀ p', (Placement.visitor arena structs).expr id (.struct name inits) walk p =
              .ok ((), p') →
            ∃ address bytes, layout.Shows arena inits bytes ∧ 4 ∣ address ∧
              p' = { p with
                data := { p.data with
                  cursor := address + layout.size
                  blocks := p.data.blocks ++ [⟨address, bytes⟩] }
                literals := p.literals.set id address } := by
  refine ⟨?_, fun layout hlayout => ⟨StructLayout.ofFields_tiles hlayout, ?_⟩⟩
  · simp only [StructLayout.ofFields_eq_ok]
    constructor
    · rintro ⟨layout, hnames, hsizes, -⟩
      exact ⟨hnames, hsizes⟩
    · rintro ⟨hnames, hsizes⟩
      exact ⟨_, hnames, hsizes, rfl⟩
  intro arena structs name inits hget
  have hfits := StructLayout.ofFields_fits hlayout
  refine ⟨fun done init rest bytes member s c _ hdone hmember hs =>
    Placement.encodeField_inside hfits hdone hmember hs c, fun id walk p => ⟨?_, ?_⟩⟩
  · rw [exists_error_iff, Placement.exists_placed_iff hget hfits, not_and_or, Nat.not_lt]
    simp only [not_forall, Placement.not_accepts_iff, exists_prop]
  · intro p' h
    rw [Placement.visitor_struct hget] at h
    obtain ⟨bytes, hbytes, hplace⟩ := bind_ok.mp h
    obtain ⟨address, data, hblock, rfl⟩ := Placement.place_eq_ok hplace
    have hshows := StructLayout.shows_of_encoded hlayout hbytes
    obtain ⟨htakes, rfl⟩ := DataImage.addBlock_ok hblock
    exact ⟨address, bytes, hshows, htakes.aligned, by rw [hshows.length]⟩

namespace Crate

def fields : List Binding :=
  [⟨"tag", .scalar .u8⟩, ⟨"weight", .f32⟩, ⟨"count", .scalar .u16⟩]

def layout : StructLayout :=
  ⟨"Crate", 7, false, ⟨[("tag", ⟨0, 1, .scalar .u8⟩), ("weight", ⟨1, 4, .f32⟩),
    ("count", ⟨5, 2, .scalar .u16⟩)]⟩⟩

/-- `Crate { tag: 7, count: -300, tag: 'x' }` -/
def arena : Arena :=
  { exprs := #[.int 7, .int 300, .unary .neg 1, .char 'x',
      .struct "Crate" [⟨"tag", 0⟩, ⟨"count", 2⟩, ⟨"tag", 3⟩]] }

def inits : List FieldInit := [⟨"tag", 0⟩, ⟨"count", 2⟩, ⟨"tag", 3⟩]

def placed : Placement where
  data := { base := 17, cursor := 27, blocks := [⟨20, [120, 0, 0, 0, 0, 212, 254]⟩] }
  literals := ⟨[(4, 20)]⟩

end Crate

/-- The second `tag` wins, `weight` is zero, and the block starts at the next multiple of four. -/
theorem crate_literal_fills :
    StructLayout.ofFields "Crate" Crate.fields false = .ok Crate.layout ∧
    Crate.layout.Tiles Crate.fields ∧
    (Placement.visitor Crate.arena ⟨[("Crate", Crate.layout)]⟩).expr 4
      (.struct "Crate" Crate.inits) (pure ()) { data := .startingAt 17 } = .ok ((), Crate.placed) ∧
    ∃ address bytes, Crate.layout.Shows Crate.arena Crate.inits bytes ∧
      Crate.placed.literals.get? 4 = some address ∧
      Crate.placed.data.blocks = [⟨address, bytes⟩] := by
  have hlayout : StructLayout.ofFields "Crate" Crate.fields false = .ok Crate.layout := by decide
  have hplaced : (Placement.visitor Crate.arena ⟨[("Crate", Crate.layout)]⟩).expr 4
      (.struct "Crate" Crate.inits) (pure ()) { data := .startingAt 17 } =
        .ok ((), Crate.placed) := by decide +kernel
  obtain ⟨htiles, hliterals⟩ :=
    (layouts_tile_and_literals_fill "Crate" Crate.fields false).2 Crate.layout hlayout
  obtain ⟨address, bytes, hshows, -, heq⟩ :=
    ((hliterals Crate.arena ⟨[("Crate", Crate.layout)]⟩ "Crate" Crate.inits rfl).2 4 (pure ())
      { data := .startingAt 17 }).2 Crate.placed hplaced
  refine ⟨hlayout, htiles, hplaced, address, bytes, hshows, ?_, ?_⟩
  · rw [heq, Table.get?_set, if_pos rfl]
  · rw [heq]
    rfl

end WasmBackend
