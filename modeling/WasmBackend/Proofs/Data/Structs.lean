import Mathlib.Data.List.Pairwise
import WasmBackend.Proofs.Data.Arrays
import WasmBackend.Proofs.Memory.Members

/-!
# Struct literals in constant data

The bytes of a struct literal are written initialiser by initialiser over zeros, so of several
initialisers of one member the last one counts. Members lie apart from each other, and what is
written for one does not show in another (`Placement.encodeStruct_encodes`). Why a literal may fail
to be encoded is left to `Data.StructLiterals`.
-/

namespace WasmBackend

open Compiled

/-! ## What initialisers give -/

namespace FieldInit

/-- The constant that a list of initialisers gives a member: that of the first one with its name,
and zero if there is none. -/
def given (arena : Arena) (fields : List FieldInit) (member : String) : Constant :=
  ((fields.find? fun field => field.name == member).bind fun field =>
    Placement.fieldConstant? arena field.value).getD (.int 0)

theorem given_cons (arena : Arena) (field : FieldInit) (rest : List FieldInit) (member : String) :
    given arena (field :: rest) member =
      if field.name = member then (Placement.fieldConstant? arena field.value).getD (.int 0)
      else given arena rest member := by
  unfold given
  by_cases hname : field.name = member
  · rw [if_pos hname, List.find?_cons_of_pos (by simpa using hname)]
    rfl
  · rw [if_neg hname, List.find?_cons_of_neg (by simpa using hname)]

/-- If no member is initialised twice, then the last initialiser is the first. -/
theorem given_reverse {fields : List FieldInit} (h : (fields.map FieldInit.name).Nodup)
    (arena : Arena) (member : String) :
    given arena fields.reverse member = given arena fields member := by
  have hfind : fields.reverse.find? (fun field => field.name == member) =
      fields.find? fun field => field.name == member := by
    induction fields with
    | nil => rfl
    | cons field rest ih =>
      obtain ⟨hfresh, hrest⟩ := List.nodup_cons.mp h
      rw [List.reverse_cons, List.find?_append, ih hrest]
      by_cases hname : field.name = member
      · have hnone : rest.find? (fun field => field.name == member) = none := by
          refine List.find?_eq_none.mpr fun other hother heq => hfresh ?_
          rw [hname, ← beq_iff_eq.mp heq]
          exact List.mem_map_of_mem hother
        simp [hname, hnone]
      · simp [hname]
  unfold given
  rw [hfind]

end FieldInit

/-! ## Layouts -/

namespace StructLayout

/-- The bytes have every member of the layout in its place, with this value. -/
structure Encodes (layout : StructLayout) (value : String → Constant) (bytes : List UInt8) :
    Prop where
  length : bytes.length = layout.size
  members : ∀ e ∈ layout.members.entries, ∀ s, e.2.ty.storage? = some s →
    DataBlock.HasAt bytes e.2.offset ((value e.1).encode s)

variable {layout : StructLayout}

/-- Two members of different names lie apart, in one order or the other. -/
theorem Spread.apart (h : layout.Spread) {a b : String × MemberLayout}
    (ha : a ∈ layout.members.entries) (hb : b ∈ layout.members.entries) (hne : a.1 ≠ b.1) :
    a.2.offset + a.2.ty.size ≤ b.2.offset ∨ b.2.offset + b.2.ty.size ≤ a.2.offset := by
  have hsymm : Std.Symm fun a b : String × MemberLayout => a.1 ≠ b.1 →
      a.2.offset + a.2.ty.size ≤ b.2.offset ∨ b.2.offset + b.2.ty.size ≤ a.2.offset :=
    ⟨fun _ _ hab hne => (hab hne.symm).symm⟩
  have hpairs : layout.members.entries.Pairwise fun a b => a.1 ≠ b.1 →
      a.2.offset + a.2.ty.size ≤ b.2.offset ∨ b.2.offset + b.2.ty.size ≤ a.2.offset :=
    List.Pairwise.imp (fun hab _ => .inl hab.2) h
  exact hpairs.forall_of_forall (fun _ _ hne => absurd rfl hne) ha hb hne

theorem Spread.keys_nodup (h : layout.Spread) : layout.members.keys.Nodup :=
  List.pairwise_map.mpr (List.Pairwise.imp And.left h)

end StructLayout

/-- The layouts of a module are those of its declarations. -/
theorem Module.extract_fits {m : Module} {base : Nat} {info : ModuleInfo}
    (h : m.extract base = .ok info) {name : String} {layout : StructLayout}
    (hlayout : info.structs.get? name = some layout) : layout.Fits := by
  obtain ⟨decl, -, hadds⟩ :=
    exists_of_forall₂_right (extract_records h).structs (Table.mem_of_get? hlayout)
  exact StructLayout.ofFields_fits hadds.2

/-! ## Bytes -/

namespace DataBlock

theorem hasAt_iff {bytes part : List UInt8} {offset : Nat} :
    HasAt bytes offset part ↔ ∀ k < part.length, bytes[offset + k]? = part[k]? := by
  unfold HasAt
  constructor
  · intro h k hk
    rw [← List.getElem?_drop, ← List.getElem?_take_of_lt hk, h]
  · intro h
    refine List.ext_getElem? fun k => ?_
    rw [List.getElem?_take]
    split
    · next hk => rw [List.getElem?_drop, h k hk]
    · next hk => rw [List.getElem?_eq_none (Nat.le_of_not_lt hk)]

end DataBlock

namespace Placement

section Overwriting

variable {bytes part : List UInt8} {start : Nat} (hfits : start + part.length ≤ bytes.length)
include hfits

theorem length_overwrite : (overwrite bytes start part).length = bytes.length := by
  simp only [overwrite, List.length_append, List.length_take, List.length_drop]
  omega

theorem getElem?_overwrite (i : Nat) : (overwrite bytes start part)[i]? =
    if start ≤ i ∧ i < start + part.length then part[i - start]? else bytes[i]? := by
  have hfront : (bytes.take start).length = start := by
    rw [List.length_take]
    omega
  have hboth : (bytes.take start ++ part).length = start + part.length := by
    rw [List.length_append, hfront]
  unfold overwrite
  by_cases hbefore : i < start
  · rw [List.append_assoc, List.getElem?_append_left (by omega), List.getElem?_take, if_pos hbefore,
      if_neg (by omega)]
  · by_cases hinside : i < start + part.length
    · rw [List.getElem?_append_left (by omega), List.getElem?_append_right (by omega), hfront,
        if_pos ⟨by omega, hinside⟩]
    · rw [List.getElem?_append_right (by omega), List.getElem?_drop, hboth, if_neg (by omega)]
      congr 1
      omega

theorem hasAt_overwrite : DataBlock.HasAt (overwrite bytes start part) start part := by
  refine DataBlock.hasAt_iff.mpr fun k hk => ?_
  rw [getElem?_overwrite hfits, if_pos ⟨by omega, by omega⟩, Nat.add_sub_cancel_left]

theorem hasAt_overwrite_of_apart {other : List UInt8} {offset : Nat}
    (h : DataBlock.HasAt bytes offset other)
    (hapart : offset + other.length ≤ start ∨ start + part.length ≤ offset) :
    DataBlock.HasAt (overwrite bytes start part) offset other := by
  refine DataBlock.hasAt_iff.mpr fun k hk => ?_
  rw [getElem?_overwrite hfits, if_neg (by omega)]
  exact DataBlock.hasAt_iff.mp h k hk

end Overwriting

/-! ## Literals -/

theorem encodeField_ok {arena : Arena} {layout : StructLayout} {name : String}
    {bytes bytes' : List UInt8} {field : FieldInit}
    (h : encodeField arena layout name bytes field = .ok bytes') :
    ∃ member c s, layout.members.get? field.name = some member ∧
      fieldConstant? arena field.value = some c ∧ member.ty.storage? = some s ∧
      bytes' = overwrite bytes member.offset (c.encode s) := by
  unfold encodeField at h
  obtain ⟨member, hmember, h⟩ := bind_ok.mp h
  unfold StructLayout.member at hmember
  split at hmember
  · next hget =>
    cases hmember
    split at h
    · cases h
    · split at h
      · cases h
      · next c hc =>
        split at h
        · cases h
        · next s hs =>
          cases h
          exact ⟨member, c, s, hget, hc, hs, rfl⟩
  · cases hmember

theorem encode_zero (s : Scalar) : (Constant.int 0).encode s = List.replicate s.size 0 := by
  cases s <;> decide

variable {arena : Arena} {layout : StructLayout} (hfits : layout.Fits)
include hfits

theorem encodes_zero : layout.Encodes (FieldInit.given arena [])
    (List.replicate layout.size 0) := by
  refine ⟨List.length_replicate, fun e he s hs => DataBlock.hasAt_iff.mpr fun k hk => ?_⟩
  have hwithin := hfits.within e he
  have hzero : FieldInit.given arena [] e.1 = .int 0 := rfl
  rw [hzero, encode_zero] at hk ⊢
  rw [List.length_replicate, Ty.storage?_size hs] at hk
  rw [List.getElem?_replicate_of_lt (by omega),
    List.getElem?_replicate_of_lt (by rwa [Ty.storage?_size hs])]

/-- An initialiser changes its own member and no other. -/
theorem encodeField_encodes {name : String} {fields : List FieldInit} {field : FieldInit}
    {bytes bytes' : List UInt8} (hbytes : layout.Encodes (FieldInit.given arena fields) bytes)
    (h : encodeField arena layout name bytes field = .ok bytes') :
    layout.Encodes (FieldInit.given arena (field :: fields)) bytes' := by
  obtain ⟨member, c, s, hmember, hc, hs, rfl⟩ := encodeField_ok h
  have hmem := Table.mem_of_get? hmember
  have hlength : (c.encode s).length = member.ty.size := by
    rw [Constant.length_encode, Ty.storage?_size hs]
  have hinside : member.offset + (c.encode s).length ≤ bytes.length := by
    rw [hlength, hbytes.length]
    exact hfits.within _ hmem
  refine ⟨(length_overwrite hinside).trans hbytes.length, fun e he s' hs' => ?_⟩
  rw [FieldInit.given_cons]
  split
  · next hname =>
    have heq : e.2 = member := by
      have hget := (Table.get?_eq_some_iff hfits.spread.keys_nodup).mpr
        (show (e.1, e.2) ∈ _ from he)
      rw [← hname, hmember] at hget
      exact (Option.some.inj hget).symm
    subst heq
    cases hs.symm.trans hs'
    rw [hc]
    exact hasAt_overwrite hinside
  · next hname =>
    refine hasAt_overwrite_of_apart hinside (hbytes.members e he s' hs') ?_
    rw [hlength, Constant.length_encode, Ty.storage?_size hs']
    exact hfits.spread.apart he hmem (Ne.symm hname)

theorem encodeFields_encodes {name : String} {fields : List FieldInit} {bytes bytes' : List UInt8}
    {done : List FieldInit} (hbytes : layout.Encodes (FieldInit.given arena done) bytes)
    (h : fields.foldlM (encodeField arena layout name) bytes = .ok bytes') :
    layout.Encodes (FieldInit.given arena (fields.reverse ++ done)) bytes' := by
  induction fields generalizing bytes done with
  | nil =>
    cases h
    exact hbytes
  | cons field rest ih =>
    obtain ⟨next, hnext, hrest⟩ := bind_ok.mp h
    rw [List.reverse_cons, List.append_assoc]
    exact ih (encodeField_encodes hfits hbytes hnext) hrest

/-- A struct literal has every member in its place, with the value of its last initialiser. -/
theorem encodeStruct_encodes {structs : Table String StructLayout} {name : String}
    {fields : List FieldInit} {bytes : List UInt8} (hlayout : structs.get? name = some layout)
    (h : encodeStruct arena structs name fields = .ok bytes) :
    layout.Encodes (FieldInit.given arena fields.reverse) bytes := by
  simp only [encodeStruct, hlayout] at h
  have hencodes := encodeFields_encodes hfits (encodes_zero hfits) h
  rwa [List.append_nil] at hencodes

end Placement

/-- The initialisers of an encoded literal are constants. -/
theorem Placement.encodeStruct_constants {arena : Arena} {structs : Table String StructLayout}
    {name : String} {fields : List FieldInit} {bytes : List UInt8}
    (h : encodeStruct arena structs name fields = .ok bytes) :
    ∀ field ∈ fields, (fieldConstant? arena field.value).isSome := by
  unfold encodeStruct at h
  split at h
  · cases h
  · next layout _ =>
    generalize List.replicate layout.size (0 : UInt8) = start at h
    induction fields generalizing start with
    | nil => exact nofun
    | cons field rest ih =>
      obtain ⟨next, hnext, hrest⟩ := bind_ok.mp h
      obtain ⟨-, c, -, -, hc, -⟩ := encodeField_ok hnext
      exact List.forall_mem_cons.mpr ⟨by rw [hc]; rfl, ih next hrest⟩

end WasmBackend
