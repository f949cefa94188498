import Mathlib.Data.List.Induction
import WasmBackend.Proofs.Data.Faithful

/-!
# Which literals share an address

Extraction asks for space time after time, and each demand is met at the next address behind all
earlier ones that suits its alignment. The address of a literal is where its last demand was met
(`Demand.locate`). That these are all different does not follow, because a demand for no bytes does
not move the cursor: an empty array, or a literal of a struct without fields, can be where the next
literal is. When exactly this happens is said by `Demand.Abuts`.

A string literal cannot be met with in this way. Its header comes behind its bytes, and of those
there is at least one. String literals among themselves are left to `Data.Recorded`.
-/

namespace WasmBackend

open Compiled

theorem DataImage.alignUp_eq_self_iff {n align : Nat} (h : 0 < align) :
    alignUp n align = n ↔ align ∣ n := by
  unfold alignUp
  constructor
  · intro heq
    exact ⟨_, heq.symm.trans (Nat.mul_comm _ _)⟩
  · rintro ⟨k, rfl⟩
    rw [Nat.add_sub_assoc h, Nat.mul_add_div h, Nat.div_eq_of_lt (Nat.sub_lt h Nat.one_pos),
      Nat.add_zero, Nat.mul_comm]

/-! ## Demands -/

/-- Array and struct literals, each of which has a block of its own. -/
def Arena.IsBlock (arena : Arena) (id : ExprId) : Prop :=
  (∃ elements stated, arena.expr? id = some (.array elements stated)) ∨
    ∃ name fields, arena.expr? id = some (.struct name fields)

/-- A literal without bytes. -/
def Arena.Blank (arena : Arena) (structs : Table String StructLayout) (id : ExprId) : Prop :=
  (∃ stated, arena.expr? id = some (.array [] stated)) ∨
    ∃ name fields layout, arena.expr? id = some (.struct name fields) ∧
      structs.get? name = some layout ∧ layout.size = 0

/-- A demand for space in constant data, for an array or struct literal or for a string. -/
structure Demand where
  literal : Option ExprId
  size : Nat
  align : Nat

namespace Demand

/-- The bytes of a string. -/
def text (content : String) : Demand := ⟨none, max content.utf8ByteSize 1, 1⟩

def header : Demand := ⟨none, 8, 4⟩

/-- The demand is that of an array or struct literal, or of the text or the header of a string. -/
inductive Fits (arena : Arena) (structs : Table String StructLayout) : Demand → Prop
  | array {id : ExprId} {elements : List ExprId} {stated : Option Ty} (s : Scalar)
      (hid : arena.expr? id = some (.array elements stated)) :
      Fits arena structs ⟨some id, elements.length * s.size, s.size⟩
  | struct {id : ExprId} {name : String} {fields : List FieldInit} {layout : StructLayout}
      (hid : arena.expr? id = some (.struct name fields))
      (hlayout : structs.get? name = some layout) : Fits arena structs ⟨some id, layout.size, 4⟩
  | text (content : String) : Fits arena structs (.text content)
  | header : Fits arena structs .header

def start (d : Demand) (cursor : Nat) : Nat := DataImage.alignUp cursor d.align

def stop (d : Demand) (cursor : Nat) : Nat := d.start cursor + d.size

/-- The cursor after these demands. -/
def serial (cursor : Nat) (demands : List Demand) : Nat :=
  demands.foldl (fun cursor d => d.stop cursor) cursor

/-- Where the last demand for the literal is met. -/
def locate (id : ExprId) : Nat → List Demand → Option Nat
  | _, [] => none
  | cursor, d :: rest =>
    (locate id (d.stop cursor) rest).or
      (if d.literal = some id then some (d.start cursor) else none)

/-- The last demand for the literal comes behind `before` and in front of `after`. -/
structure Last (demands : List Demand) (id : ExprId) (before : List Demand) (d : Demand)
    (after : List Demand) : Prop where
  split : demands = before ++ d :: after
  literal : d.literal = some id
  last : ∀ x ∈ after, x.literal ≠ some id

/-- The first literal is without bytes, and so is everything up to the second. The address suits all
that comes in between and the second literal itself. -/
def Abuts (demands : List Demand) (address : Nat) (id id' : ExprId) : Prop :=
  ∃ before d between d' after, Last demands id before d (between ++ d' :: after) ∧
    Last demands id' (before ++ d :: between) d' after ∧ d.size = 0 ∧
    (∀ x ∈ between, x.size = 0 ∧ x.align ∣ address) ∧ d'.align ∣ address

variable {arena : Arena} {structs : Table String StructLayout} {d d' : Demand} {id : ExprId}
variable {demands between : List Demand} {cursor address : Nat}

theorem Fits.align_pos (h : d.Fits arena structs) : 0 < d.align := by
  cases h with
  | array s _ => exact s.size_pos
  | struct _ _ => exact Nat.succ_pos 3
  | text content => exact Nat.one_pos
  | header => exact Nat.succ_pos 3

theorem Fits.blank (h : d.Fits arena structs) (hid : d.literal = some id) (hsize : d.size = 0) :
    arena.Blank structs id := by
  cases h with
  | array s harray =>
    cases hid
    have hlength := (Nat.mul_eq_zero.mp hsize).resolve_right (Nat.ne_of_gt s.size_pos)
    rw [List.length_eq_zero_iff.mp hlength] at harray
    exact .inl ⟨_, harray⟩
  | struct hstruct hlayout =>
    cases hid
    exact .inr ⟨_, _, _, hstruct, hlayout, hsize⟩
  | text content => cases hid
  | header => cases hid

/-! ## One demand behind the other -/

theorem serial_append (cursor : Nat) (l l' : List Demand) :
    serial cursor (l ++ l') = serial (serial cursor l) l' :=
  List.foldl_append

theorem locate_append (id : ExprId) (cursor : Nat) (l : List Demand) (d : Demand) :
    locate id cursor (l ++ [d]) =
      if d.literal = some id then some (d.start (serial cursor l)) else locate id cursor l := by
  induction l generalizing cursor with
  | nil => rfl
  | cons x rest ih =>
    rw [List.cons_append, locate, ih (x.stop cursor)]
    split
    · rfl
    · rfl

theorem Last.locate {before after : List Demand} (h : Last demands id before d after)
    (cursor : Nat) : locate id cursor demands = some (d.start (serial cursor before)) := by
  obtain ⟨rfl, hliteral, hlast⟩ := h
  induction after using List.reverseRecOn with
  | nil => rw [locate_append, if_pos hliteral]
  | append_singleton rest x ih =>
    rw [← List.cons_append, ← List.append_assoc, locate_append, if_neg (hlast x (by simp))]
    exact ih fun y hy => hlast y (by simp [hy])

theorem exists_last (h : locate id cursor demands = some address) :
    ∃ before d after, Last demands id before d after ∧
      address = d.start (serial cursor before) := by
  induction demands using List.reverseRecOn with
  | nil => cases h
  | append_singleton rest x ih =>
    rw [locate_append] at h
    split at h
    · next hx =>
      cases h
      exact ⟨rest, x, [], ⟨rfl, hx, by simp⟩, rfl⟩
    · next hx =>
      obtain ⟨before, d, after, ⟨rfl, hliteral, hlast⟩, haddress⟩ := ih h
      refine ⟨before, d, after ++ [x], ⟨by simp, hliteral, ?_⟩, haddress⟩
      intro y hy
      rcases List.mem_append.mp hy with hy | hy
      · exact hlast y hy
      · rwa [List.mem_singleton.mp hy]

theorem le_start (h : 0 < d.align) : cursor ≤ d.start cursor :=
  DataImage.le_alignUp (Nat.ne_of_gt h)

theorem le_serial (h : ∀ x ∈ demands, 0 < x.align) : cursor ≤ serial cursor demands := by
  induction demands generalizing cursor with
  | nil => exact Nat.le_refl _
  | cons x rest ih =>
    obtain ⟨hx, hrest⟩ := List.forall_mem_cons.mp h
    calc cursor ≤ x.start cursor := le_start hx
      _ ≤ x.stop cursor := Nat.le_add_right _ _
      _ ≤ serial (x.stop cursor) rest := ih hrest

/-- The cursor stays where it is only if nothing is asked for and no alignment is in the way. -/
theorem serial_eq_self_iff (h : ∀ x ∈ demands, 0 < x.align) :
    serial cursor demands = cursor ↔ ∀ x ∈ demands, x.size = 0 ∧ x.align ∣ cursor := by
  induction demands with
  | nil => simp [serial]
  | cons x rest ih =>
    obtain ⟨hx, hrest⟩ := List.forall_mem_cons.mp h
    have hstart : cursor ≤ x.start cursor := le_start hx
    have hserial : x.stop cursor ≤ serial (x.stop cursor) rest := le_serial hrest
    have hstop : x.stop cursor = x.start cursor + x.size := rfl
    rw [List.forall_mem_cons, ← ih hrest, ← DataImage.alignUp_eq_self_iff hx]
    show serial (x.stop cursor) rest = cursor ↔ (x.size = 0 ∧ x.start cursor = cursor) ∧ _
    constructor
    · intro heq
      have hcursor : x.stop cursor = cursor := by omega
      rw [hcursor] at heq
      exact ⟨⟨by omega, by omega⟩, heq⟩
    · rintro ⟨⟨hsize, hself⟩, heq⟩
      rw [hstop, hsize, hself]
      exact heq

theorem start_eq_start_iff (hd' : 0 < d'.align) (h : ∀ x ∈ between, 0 < x.align) :
    d.start cursor = d'.start (serial (d.stop cursor) between) ↔
      d.size = 0 ∧ (∀ x ∈ between, x.size = 0 ∧ x.align ∣ d.start cursor) ∧
        d'.align ∣ d.start cursor := by
  have hserial : d.stop cursor ≤ serial (d.stop cursor) between := le_serial h
  have hstart : serial (d.stop cursor) between ≤ d'.start (serial (d.stop cursor) between) :=
    le_start hd'
  have hstop : d.stop cursor = d.start cursor + d.size := rfl
  rw [← serial_eq_self_iff h, ← DataImage.alignUp_eq_self_iff hd']
  constructor
  · intro heq
    have hself : d.stop cursor = d.start cursor := by omega
    rw [hself] at heq hserial hstart
    have hback : serial (d.start cursor) between = d.start cursor := by omega
    rw [hback] at heq
    exact ⟨by omega, hback, heq.symm⟩
  · rintro ⟨hsize, hback, heq⟩
    rw [hstop, hsize, Nat.add_zero, hback]
    exact heq.symm

/-- Of two different places in a list, one comes first. -/
theorem split_cases {b a b' a' : List Demand} (h : b ++ d :: a = b' ++ d' :: a') (hne : d ≠ d') :
    (∃ between, b' = b ++ d :: between ∧ a = between ++ d' :: a') ∨
      ∃ between, b = b' ++ d' :: between ∧ a' = between ++ d :: a := by
  rcases List.append_eq_append_iff.mp h with ⟨l, hb, hl⟩ | ⟨l, hb, hl⟩
  · cases l with
    | nil => exact absurd (List.cons.inj hl).1 hne
    | cons x between =>
      obtain ⟨rfl, rfl⟩ := List.cons.inj hl
      exact .inl ⟨between, hb, rfl⟩
  · cases l with
    | nil => exact absurd (List.cons.inj hl).1.symm hne
    | cons x between =>
      obtain ⟨rfl, rfl⟩ := List.cons.inj hl
      exact .inr ⟨between, hb, rfl⟩

end Demand

/-! ## What the walk asks for -/

namespace Placement

open Demand (serial locate)

/-- These are the demands made so far. -/
structure Accounts (arena : Arena) (structs : Table String StructLayout) (base : Nat)
    (demands : List Demand) (p : Placement) : Prop where
  fits : ∀ d ∈ demands, d.Fits arena structs
  cursor : p.data.cursor = serial base demands
  literals : ∀ id, arena.IsBlock id → p.literals.get? id = locate id base demands
  headers : ∀ content address, p.data.headers.get? content = some address →
    ∃ before after, demands = before ++ .text content :: .header :: after ∧
      address = Demand.header.start (serial base (before ++ [.text content]))
  interned : ∀ content, (p.data.interned.get? content).isSome →
    (p.data.headers.get? content).isSome

/-- The state comes from demands. -/
def Accounted (arena : Arena) (structs : Table String StructLayout) (base : Nat) (p : Placement) :
    Prop := ∃ demands, Accounts arena structs base demands p

variable {arena : Arena} {structs : Table String StructLayout} {base : Nat} {id : ExprId}

theorem Accounts.addBlock {demands : List Demand} {p : Placement} {bytes : List UInt8}
    {align address : Nat} {data : DataImage} (hp : Accounts arena structs base demands p)
    (hfits : Demand.Fits arena structs ⟨some id, bytes.length, align⟩)
    (hblock : p.data.addBlock bytes align = .ok (address, data)) :
    Accounts arena structs base (demands ++ [⟨some id, bytes.length, align⟩])
      { p with data, literals := p.literals.set id address } := by
  obtain ⟨htakes, rfl⟩ := DataImage.addBlock_ok hblock
  have haddress := htakes.first
  rw [hp.cursor] at haddress
  refine ⟨?_, ?_, ?_, ?_, hp.interned⟩
  · exact List.forall_mem_append.mpr ⟨hp.fits, List.forall_mem_singleton.mpr hfits⟩
  · rw [Demand.serial_append, haddress]
    rfl
  · intro other hother
    rw [Table.get?_set, Demand.locate_append, hp.literals other hother, haddress]
    simp only [Option.some.injEq]
    rfl
  · intro content header hheader
    obtain ⟨before, after, rfl, hstart⟩ := hp.headers content header hheader
    exact ⟨before, after ++ [⟨some id, bytes.length, align⟩], by simp, hstart⟩

theorem Accounts.header {demands : List Demand} {p : Placement} {content : String} {address : Nat}
    {data : DataImage} (hp : Accounts arena structs base demands p)
    (hid : arena.expr? id = some (.str content))
    (hheader : p.data.header content = .ok (address, data)) :
    Accounted arena structs base { p with data, literals := p.literals.set id address } := by
  have hother (other : ExprId) (hblock : arena.IsBlock other) :
      (p.literals.set id address).get? other = locate other base demands := by
    rw [Table.get?_set, if_neg, hp.literals other hblock]
    rintro rfl
    simp [Arena.IsBlock, hid] at hblock
  rcases DataImage.header_ok hheader with
    ⟨-, rfl⟩ | ⟨hnew, start, stored, headed, hintern, hadd, rfl⟩
  · exact ⟨demands, { hp with literals := hother }⟩
  -- A text without a header has not been stored yet.
  have hfresh : p.data.interned.get? content = none := by
    by_contra hknown
    have hheaded := hp.interned content (Option.isSome_iff_ne_none.mpr hknown)
    rw [hnew] at hheaded
    cases hheaded
  rcases DataImage.intern_ok hintern with ⟨hknown, -⟩ | ⟨-, htext, rfl⟩
  · rw [hfresh] at hknown
    cases hknown
  obtain ⟨hplace, rfl⟩ := DataImage.addBlock_ok hadd
  have hstart := htext.first
  have haddress := hplace.first
  rw [hp.cursor] at hstart
  have hcursor : start + max content.toUTF8.toList.length 1 =
      serial base (demands ++ [.text content]) := by
    rw [Demand.serial_append, length_toUTF8, hstart]
    rfl
  dsimp only at haddress
  rw [hcursor] at haddress
  refine ⟨demands ++ [.text content] ++ [.header], ?_, ?_, ?_, ?_, ?_⟩
  · simp only [List.forall_mem_append, List.forall_mem_singleton]
    exact ⟨⟨hp.fits, .text content⟩, .header⟩
  · rw [Demand.serial_append, haddress]
    rfl
  · intro other hblock
    rw [hother other hblock, Demand.locate_append, Demand.locate_append]
    rfl
  · intro content' address' hget
    rw [Table.get?_set] at hget
    split at hget
    · next heq =>
      subst heq
      cases hget
      exact ⟨demands, [], by simp, haddress⟩
    · obtain ⟨before, after, rfl, heq⟩ := hp.headers content' address' hget
      exact ⟨before, after ++ [.text content, .header], by simp, heq⟩
  · intro content' hget
    rw [Table.get?_set] at hget ⊢
    split
    · rfl
    · next hne =>
      rw [if_neg hne] at hget
      exact hp.interned content' hget

theorem Step.accounted {p p' : Placement} (h : Step arena structs p p')
    (hlayouts : ∀ name layout, structs.get? name = some layout → layout.Fits)
    (hp : Accounted arena structs base p) : Accounted arena structs base p' := by
  obtain ⟨demands, hp⟩ := hp
  cases h with
  | expect id ty => exact ⟨demands, { hp with }⟩
  | string hid hheader => exact hp.header hid hheader
  | array hid hencode hblock =>
    obtain ⟨s, hs, rfl, hlength⟩ := encodeArray_ok hencode
    refine ⟨_, hp.addBlock ?_ hblock⟩
    rw [hlength, ← Ty.storage?_size hs]
    exact .array s hid
  | @struct id name fields bytes address data hid hencode hblock =>
    obtain ⟨layout, hlayout⟩ : ∃ layout, structs.get? name = some layout := by
      unfold encodeStruct at hencode
      split at hencode
      · cases hencode
      · next layout hlayout => exact ⟨layout, hlayout⟩
    have hlength := (encodeStruct_encodes (hlayouts name layout hlayout) hlayout hencode).length
    refine ⟨_, hp.addBlock ?_ hblock⟩
    rw [hlength]
    exact .struct hid hlayout

end Placement

/-! ## Shared addresses -/

namespace Placement.Accounts

open Demand (serial locate Abuts)

variable {arena : Arena} {structs : Table String StructLayout} {base : Nat} {p : Placement}
variable {demands : List Demand} (h : Accounts arena structs base demands p)
include h

theorem align_pos {d : Demand} (hd : d ∈ demands) : 0 < d.align := (h.fits d hd).align_pos

section

variable {before between after : List Demand} {d d' : Demand}
variable (hsplit : demands = before ++ d :: (between ++ d' :: after))
include hsplit

theorem stop_le_start :
    d.stop (serial base before) ≤ d'.start (serial base (before ++ d :: between)) := by
  rw [Demand.serial_append]
  refine (Demand.le_serial fun x hx => ?_).trans (Demand.le_start (h.align_pos ?_))
  · exact h.align_pos (by simp [hsplit, hx])
  · simp [hsplit]

theorem start_eq_iff :
    d.start (serial base before) = d'.start (serial base (before ++ d :: between)) ↔
      d.size = 0 ∧ (∀ x ∈ between, x.size = 0 ∧ x.align ∣ d.start (serial base before)) ∧
        d'.align ∣ d.start (serial base before) := by
  rw [Demand.serial_append]
  refine Demand.start_eq_start_iff (h.align_pos ?_) fun x hx => h.align_pos ?_
  · simp [hsplit]
  · simp [hsplit, hx]

end

theorem eq_of_abuts {id id' : ExprId} {a a' : Nat} (habuts : Abuts demands a id id')
    (ha : locate id base demands = some a) (ha' : locate id' base demands = some a') : a = a' := by
  obtain ⟨before, d, between, d', after, hlast, hlast', hbetween⟩ := habuts
  cases (hlast.locate base).symm.trans ha
  cases (hlast'.locate base).symm.trans ha'
  exact (h.start_eq_iff hlast.split).mpr hbetween

theorem shared_iff {id id' : ExprId} {a a' : Nat} (hne : id ≠ id') (hid : arena.IsBlock id)
    (hid' : arena.IsBlock id') (ha : p.literals.get? id = some a)
    (ha' : p.literals.get? id' = some a') :
    a = a' ↔ Abuts demands a id id' ∨ Abuts demands a' id' id := by
  rw [h.literals id hid] at ha
  rw [h.literals id' hid'] at ha'
  constructor
  · intro heq
    obtain ⟨before, d, after, hlast, rfl⟩ := Demand.exists_last ha
    obtain ⟨before', d', after', hlast', rfl⟩ := Demand.exists_last ha'
    have hdiffer : d ≠ d' := by
      rintro rfl
      exact hne (Option.some.inj (hlast.literal.symm.trans hlast'.literal))
    rcases Demand.split_cases (hlast.split.symm.trans hlast'.split) hdiffer with
      ⟨between, rfl, rfl⟩ | ⟨between, rfl, rfl⟩
    · exact .inl ⟨before, d, between, d', after', hlast, hlast',
        (h.start_eq_iff hlast.split).mp heq⟩
    · exact .inr ⟨before', d', between, d, after, hlast', hlast,
        (h.start_eq_iff hlast'.split).mp heq.symm⟩
  · intro habuts
    rcases habuts with habuts | habuts
    · exact h.eq_of_abuts habuts ha ha'
    · exact (h.eq_of_abuts habuts ha' ha).symm

theorem blank_of_abuts {id id' : ExprId} {a : Nat} (habuts : Abuts demands a id id') :
    arena.Blank structs id := by
  obtain ⟨before, d, between, d', after, hlast, -, hsize, -⟩ := habuts
  exact (h.fits d (by simp [hlast.split])).blank hlast.literal hsize

/-- Before a header comes a byte of its text, and the header itself is not without bytes. -/
theorem ne_header {id : ExprId} {a : Nat} {content : String} (hid : arena.IsBlock id)
    (ha : p.literals.get? id = some a) : p.data.headers.get? content ≠ some a := by
  intro hheader
  rw [h.literals id hid] at ha
  obtain ⟨before, d, after, ⟨hsplit, hliteral, -⟩, rfl⟩ := Demand.exists_last ha
  obtain ⟨before', after', hsplit', heq⟩ := h.headers content _ hheader
  have hdiffer : d ≠ .text content := by
    rintro rfl
    cases hliteral
  -- The literal was placed before the text of the header, or behind it.
  rcases Demand.split_cases (hsplit.symm.trans hsplit') hdiffer with
    ⟨between, rfl, rfl⟩ | ⟨between, rfl, hafter⟩
  · have htext := h.stop_le_start hsplit
    have hheader : (Demand.text content).stop (serial base (before ++ d :: between)) ≤
        Demand.header.start (serial base (before ++ d :: between ++ [.text content])) :=
      h.stop_le_start hsplit'
    have hbytes : 1 ≤ (Demand.text content).size := Nat.le_max_right _ _
    unfold Demand.stop at htext hheader
    omega
  · cases between with
    | nil =>
      cases hafter
      cases hliteral
    -- Behind the text comes its header, so the literal is behind that as well.
    | cons x rest =>
      obtain ⟨rfl, rfl⟩ := List.cons.inj hafter
      have hbehind : Demand.header.stop (serial base (before' ++ [.text content])) ≤
          d.start (serial base (before' ++ [.text content] ++ .header :: rest)) :=
        h.stop_le_start (by simpa using hsplit')
      rw [List.append_assoc, Demand.stop, ← heq] at hbehind
      exact absurd hbehind (Nat.not_le_of_lt (Nat.lt_add_of_pos_right (Nat.succ_pos 7)))

end Placement.Accounts

/-- Extraction places literals one behind the other, each at the next address that suits it, and
says of array and struct literals where they were placed last. Two of them share an address exactly
if nothing but literals without bytes was placed from the one to the other, so at least one of them
is such a literal. No array or struct literal is where a string literal is. -/
theorem literals_share_addresses_iff (m : Module) (base : Nat) (info : ModuleInfo)
    (h : m.extract base = .ok info) :
    ∃ demands : List Demand, (∀ d ∈ demands, d.Fits m.arena info.structs) ∧
      info.data.cursor = Demand.serial base demands ∧
      (∀ id, m.arena.IsBlock id → info.literals.get? id = Demand.locate id base demands) ∧
      (∀ id id' a a', m.arena.IsBlock id → m.arena.IsBlock id' → id ≠ id' →
        info.literals.get? id = some a → info.literals.get? id' = some a' →
        (a = a' ↔ Demand.Abuts demands a id id' ∨ Demand.Abuts demands a' id' id) ∧
          (a = a' → m.arena.Blank info.structs id ∨ m.arena.Blank info.structs id')) ∧
      ∀ id a content, m.arena.IsBlock id → info.literals.get? id = some a →
        info.data.headers.get? content ≠ some a := by
  have hlayouts (name : String) (layout : StructLayout)
      (hlayout : info.structs.get? name = some layout) : layout.Fits :=
        Module.extract_fits h hlayout
  obtain ⟨declared, placed, hdeclared, hplaced, rfl⟩ := Module.extract_ok h
  have hstart : Placement.Accounted m.arena declared.structs base { data := declared.data } := by
    rw [Module.declarations_data hdeclared]
    exact ⟨[], by simp, rfl, fun _ _ => rfl, nofun, nofun⟩
  -- The account starts out empty, and every literal that is visited adds to it.
  obtain ⟨demands, haccounts⟩ := Placement.visitModule_along
    (Placement.Ensures.lasting (Placement.Accounted m.arena declared.structs base))
    (fun _ _ h => h.accounted hlayouts) _ _ _ hplaced hstart
  refine ⟨demands, haccounts.fits, haccounts.cursor, haccounts.literals, ?_, ?_⟩
  · intro id id' a a' hid hid' hne ha ha'
    have hshared := haccounts.shared_iff hne hid hid' ha ha'
    refine ⟨hshared, fun heq => ?_⟩
    exact (hshared.mp heq).imp haccounts.blank_of_abuts haccounts.blank_of_abuts
  · intro id a content hid ha
    exact haccounts.ne_header hid ha

/-- Two empty arrays, and an array of one element. -/
def twins : Module where
  name := "twins"
  items := [0, 1, 2]
  arena := {
    exprs := #[.array [] none, .array [] none, .int 7, .array [2] none]
    stmts := #[.letting ⟨"a", none, 0, false⟩, .letting ⟨"b", none, 1, false⟩,
      .letting ⟨"c", none, 3, false⟩] }

/-- The empty arrays share an address with each other, and with what comes next. -/
theorem twins_share_address : ∃ info demands, twins.extract 16 = .ok info ∧
    info.literals.get? 0 = some 16 ∧ info.literals.get? 1 = some 16 ∧
    info.literals.get? 3 = some 16 ∧
    (Demand.Abuts demands 16 0 1 ∨ Demand.Abuts demands 16 1 0) ∧
    twins.arena.Blank info.structs 0 := by
  have hplaces : (twins.extract 16).map (fun info => [0, 1, 3].map info.literals.get?) =
      .ok [some 16, some 16, some 16] := by decide +kernel
  obtain ⟨info, hinfo, hget⟩ := map_ok.mp hplaces
  simp only [List.map_cons, List.cons.injEq] at hget
  obtain ⟨ha, hb, hc, -⟩ := hget
  obtain ⟨demands, -, -, -, hshare, -⟩ := literals_share_addresses_iff twins 16 info hinfo
  have hid : twins.arena.IsBlock 0 := .inl ⟨_, _, rfl⟩
  obtain ⟨habuts, -⟩ := hshare 0 1 16 16 hid (.inl ⟨_, _, rfl⟩) (Nat.zero_ne_add_one 0) ha hb
  obtain ⟨-, hblank⟩ := hshare 0 3 16 16 hid (.inl ⟨_, _, rfl⟩) (by decide) ha hc
  refine ⟨info, demands, hinfo, ha, hb, hc, habuts.mp rfl, ?_⟩
  rcases hblank rfl with hblank | ⟨_, hfull⟩ | ⟨_, _, _, hstruct, -⟩
  · exact hblank
  · cases hfull
  · cases hstruct

end WasmBackend
