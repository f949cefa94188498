import WasmBackend.Proofs.Memory.Blocks
import WasmBackend.Proofs.Memory.Statements
import WasmBackend.Proofs.Program.Relocation

/-!
# Struct literals in memory

A struct literal is written twice. Its bytes are constant data, and the `let` that it initialises
stores every member over them again, besides putting it into its local. Both take a member that is
not initialised for zero, and both keep of a constant what fits the member.

They differ in one point: of several initialisers of a member the data has the last one and the
`let` takes the first. So the block is what it was exactly if the two leave the same bytes in every
member (`struct_let_keeps_literal_iff`), and it always is if no member is initialised twice. What
other code stores over the block is left out.
-/

namespace WasmBackend

open Lower

/-! ## Low bytes -/

theorem getElem?_littleEndian (count n k : Nat) : (littleEndian count n)[k]? =
    if k < count then some (UInt8.ofNat (n / 256 ^ k % 256)) else none := by
  induction count generalizing n k with
  | zero => rfl
  | succ count ih =>
    cases k with
    | zero => simp [littleEndian]
    | succ k =>
      rw [littleEndian, List.getElem?_cons_succ, ih, Nat.div_div_eq_div_mul, ← Nat.pow_succ']
      simp only [Nat.succ_eq_add_one, Nat.add_lt_add_iff_right]

/-- What is dropped behind the bytes that are written does not matter. -/
theorem littleEndian_mod {count limit : Nat} (h : count ≤ limit) (n : Nat) :
    littleEndian count (n % 256 ^ limit) = littleEndian count n := by
  induction count generalizing limit n with
  | zero => rfl
  | succ count ih =>
    cases limit with
    | zero => omega
    | succ limit =>
      have hlow : n % 256 ^ (limit + 1) % 256 = n % 256 :=
        Nat.mod_mod_of_dvd n (Nat.dvd_mul_left 256 (256 ^ limit))
      have hhigh : n % 256 ^ (limit + 1) / 256 = n / 256 % 256 ^ limit := by
        rw [Nat.pow_succ', Nat.mod_mul_right_div_self]
      rw [littleEndian, littleEndian, hlow, hhigh, ih (by omega)]

namespace Memory

variable {m m' : Memory} {address : Nat} {bytes : List UInt8}

theorem write_shows (m : Memory) (address count value : Nat) :
    (m.write address count value).Shows address (littleEndian count value) := by
  intro k b hb
  rw [getElem?_littleEndian] at hb
  split at hb
  · next hk =>
    cases hb
    simp only [write]
    rw [if_pos ⟨by omega, by omega⟩, Nat.add_sub_cancel_left]
    apply BitVec.eq_of_toNat_eq
    simp
  · cases hb

/-- Bytes that are not touched stay. -/
theorem Shows.kept (h : m.Shows address bytes)
    (hkept : ∀ k < bytes.length, m'.bytes (address + k) = m.bytes (address + k)) :
    m'.Shows address bytes := by
  intro k b hb
  rw [hkept k (List.getElem?_eq_some_iff.mp hb).1]
  exact h k b hb

/-- Memory shows one thing only. -/
theorem Shows.unique {bytes' : List UInt8} (h : m.Shows address bytes)
    (h' : m.Shows address bytes') (hlength : bytes.length = bytes'.length) : bytes = bytes' := by
  refine List.ext_getElem hlength fun k hk hk' => UInt8.toBitVec_inj.mp ?_
  rw [← h k _ (List.getElem?_eq_getElem hk), ← h' k _ (List.getElem?_eq_getElem hk')]

end Memory

/-! ## Constants -/

namespace Constant

/-- The word that code takes a constant for. -/
def word (c : Constant) : Word := .ofInt 32 (Instr.wrapped c.toInt64)

theorem toNat_word (c : Constant) : c.word.toNat = c.toInt64.toUInt64.toNat % 256 ^ 4 := by
  have hword : c.word = c.toInt64.toInt32.toBitVec := BitVec.ofInt_toInt
  rw [hword, Int64.toBitVec_toInt32, BitVec.signExtend_eq_setWidth_of_le _ (by decide),
    BitVec.toNat_setWidth]
  rfl

/-- The bytes of a constant are the low bytes of its word. -/
theorem encode_eq_word {s : Scalar} (hs : s ≠ .f32) (c : Constant) :
    c.encode s = littleEndian s.size c.word.toNat := by
  have hsize : s.size ≤ 4 := by cases s <;> decide
  rw [c.encode_of_ne_f32 hs, toNat_word, littleEndian_mod hsize]

end Constant

theorem Instr.constant_of_ne_f32 {s : Scalar} (hs : s ≠ .f32) (c : Constant) :
    constant c s.lane = intConst (wrapped c.toInt64) := by
  cases s <;> first | rfl | exact absurd rfl hs

/-! ## Giving members their first values -/

theorem Placement.ofExpr?_of_fieldConstant? {arena : Arena} {id : ExprId} {c : Constant}
    (h : fieldConstant? arena id = some c) : Constant.ofExpr? arena id = some c := by
  unfold fieldConstant? at h
  split at h
  · cases h
  · split at h
    · cases h
    · exact h
  · cases h

theorem Ty.lane_of_storage? {ty : Ty} {s : Scalar} (h : ty.storage? = some s) :
    ty.lane = s.lane := by
  cases ty <;> cases h <;> rfl

theorem Ty.exists_storage? {ty : Ty} (h : 0 < ty.size) : ∃ s, ty.storage? = some s := by
  cases ty with
  | void => cases h
  | _ => exact ⟨_, rfl⟩

/-- A member is given the constant of its first initialiser. -/
theorem initMember_constant {sc : Scope} {x member : String} {fields : List FieldInit}
    (hfields : ∀ field ∈ fields, (Placement.fieldConstant? sc.arena field.value).isSome)
    {layout : MemberLayout} {code : Code} (h : initMember sc x fields (member, layout) = .ok code) :
    ∃ s, layout.ty.storage? = some s ∧ code = .one (.localGet x) ++
      .one (.constant (FieldInit.given sc.arena fields member) s.lane) ++
      .ofList [.localTee (Scope.flattenedName x member), .store s layout.offset] := by
  obtain ⟨s, value, hs, hvalue, rfl⟩ := initMember_ok h
  rw [Ty.lane_of_storage? hs] at hvalue
  have heq : value = .one (.constant (FieldInit.given sc.arena fields member) s.lane) := by
    rcases hvalue with ⟨field, hfind, hvalue⟩ | ⟨hfind, rfl⟩
    · obtain ⟨c, hc⟩ :=
        Option.isSome_iff_exists.mp (hfields field (List.mem_of_find?_eq_some hfind))
      have hgiven : FieldInit.given sc.arena fields member = c := by
        simp [FieldInit.given, hfind, hc]
      have hlane : s.lane ≠ .void := by cases s <;> decide
      have hconstant : sc.constant? field.value = some c := Placement.ofExpr?_of_fieldConstant? hc
      simp only [asLane, asLaneWith, if_neg hlane, hconstant] at hvalue
      rw [hgiven]
      exact (Except.ok.inj hvalue).symm
    · simp [FieldInit.given, hfind]
  exact ⟨s, hs, by rw [heq]⟩

namespace MachineState

/-- Where the bytes of a struct variable start. -/
def addressOf (state : MachineState) (x : String) : Nat := (state.registers (.localVar x)).toNat

/-- Puts a constant into the local of a member and into memory. -/
def give (state : MachineState) (x member : String) (s : Scalar) (offset : Nat) (c : Constant) :
    MachineState where
  registers := (state.setLocal (Scope.flattenedName x member) c.word).registers
  memory := state.memory.write (state.addressOf x + offset) s.size c.word.toNat

/-- What giving the members of a struct these values does, in their locals and in memory. -/
structure Filled (x : String) (value : String → Constant)
    (entries : List (String × MemberLayout)) (before after : MachineState) : Prop where
  size : after.memory.size = before.memory.size
  kept : ∀ v, (∀ e ∈ entries, v ≠ .localVar (Scope.flattenedName x e.1)) →
    after.registers v = before.registers v
  outside : ∀ i, (∀ e ∈ entries, i < before.addressOf x + e.2.offset ∨
      before.addressOf x + e.2.offset + e.2.ty.size ≤ i) →
    after.memory.bytes i = before.memory.bytes i
  held : ∀ e ∈ entries, after.held x e.1 = (value e.1).word
  shows : ∀ e ∈ entries, ∀ s, e.2.ty.storage? = some s →
    after.memory.Shows (before.addressOf x + e.2.offset) ((value e.1).encode s)

section Give

variable (state : MachineState) (x member : String) (s : Scalar) (offset : Nat) (c : Constant)

theorem give_kept {v : Register} (h : v ≠ .localVar (Scope.flattenedName x member)) :
    (state.give x member s offset c).registers v = state.registers v := if_neg h

@[simp] theorem addressOf_give :
    (state.give x member s offset c).addressOf x = state.addressOf x := by
  unfold addressOf
  rw [give_kept]
  intro heq
  exact Scope.flattenedName_ne x member (Register.localVar.inj heq).symm

@[simp] theorem held_give : (state.give x member s offset c).held x member = c.word :=
  state.setLocal_self _ _

theorem give_outside {i : Nat}
    (h : i < state.addressOf x + offset ∨ state.addressOf x + offset + s.size ≤ i) :
    (state.give x member s offset c).memory.bytes i = state.memory.bytes i := if_neg (by omega)

theorem give_shows {s : Scalar} (hs : s ≠ .f32) :
    (state.give x member s offset c).memory.Shows (state.addressOf x + offset) (c.encode s) := by
  rw [c.encode_eq_word hs]
  exact state.memory.write_shows _ _ _

end Give

/-- A member that lies in front of the others keeps what it was given while they are filled. -/
theorem Filled.cons {x member : String} {value : String → Constant} {layout : MemberLayout}
    {rest : List (String × MemberLayout)} {s : Scalar} {before after : MachineState}
    (hs : layout.ty.storage? = some s) (hfloat : s ≠ .f32)
    (hfront : ∀ e ∈ rest, member ≠ e.1 ∧ layout.offset + layout.ty.size ≤ e.2.offset)
    (h : Filled x value rest (before.give x member s layout.offset (value member)) after) :
    Filled x value ((member, layout) :: rest) before after := by
  have hsize : s.size = layout.ty.size := Ty.storage?_size hs
  obtain ⟨hmemory, hkept, houtside, hheld, hshows⟩ := h
  simp only [addressOf_give] at houtside hshows
  refine ⟨hmemory, ?_, ?_, ?_, ?_⟩
  · intro v hv
    obtain ⟨hvFirst, hvRest⟩ := List.forall_mem_cons.mp hv
    rw [hkept v hvRest]
    exact before.give_kept _ _ _ _ _ hvFirst
  · intro i hi
    obtain ⟨hiFirst, hiRest⟩ := List.forall_mem_cons.mp hi
    rw [houtside i hiRest]
    exact before.give_outside _ _ _ _ _ (by rwa [hsize])
  · refine List.forall_mem_cons.mpr ⟨?_, hheld⟩
    -- Flattened locals of different members are different, so later members leave this one alone.
    have hlocal : after.held x member =
        (before.give x member s layout.offset (value member)).held x member :=
      hkept _ fun e he heq =>
        (hfront e he).1 (Scope.flattenedName_inj (Register.localVar.inj heq))
    rw [hlocal, held_give]
  · refine List.forall_mem_cons.mpr ⟨fun s' hs' => ?_, hshows⟩
    cases hs.symm.trans hs'
    refine (before.give_shows x member layout.offset (value member) hfloat).kept fun k hk => ?_
    rw [Constant.length_encode] at hk
    refine houtside _ fun e he => .inl ?_
    -- Later members are stored behind this one, and so behind each of its bytes.
    have hbehind := (hfront e he).2
    show before.addressOf x + layout.offset + k < _
    omega

end MachineState

section Filling

variable {env : Environment} {sc : Scope} {x : String} {fields : List FieldInit}

/-- The code for one member, where memory has room for it. -/
theorem execute_give {s : Scalar} (hs : s ≠ .f32) (member : String) {offset : Nat} (c : Constant)
    {state : MachineState} (hroom : state.addressOf x + offset + s.size ≤ state.memory.size) :
    (Code.one (.localGet x) ++ .one (.constant c s.lane) ++
        .ofList [.localTee (Scope.flattenedName x member), .store s offset]).execute env [] state =
      .ok ([], state.give x member s offset c) := by
  have hstore : state.memory.store s (state.registers (.localVar x)) offset c.word =
      .ok (state.give x member s offset c).memory :=
    Memory.store_ok.mpr ⟨decide_eq_true hroom, rfl⟩
  simp only [Code.execute_append, Code.execute_one, Instr.constant_of_ne_f32 hs,
    Instr.perform_localGet]
  show (Except.map _
    (state.memory.store s (state.registers (.localVar x)) offset c.word)).bind _ = _
  rw [hstore]
  rfl

/-- The code for all members. They are filled one after the other, and a member lies in front of
those that are filled after it, so it keeps what it was given. -/
theorem initMembers_filled
    (hfields : ∀ field ∈ fields, (Placement.fieldConstant? sc.arena field.value).isSome)
    {entries : List (String × MemberLayout)}
    (hspread : entries.Pairwise fun a b => a.1 ≠ b.1 ∧ a.2.offset + a.2.ty.size ≤ b.2.offset)
    (hints : ∀ e ∈ entries, e.2.ty.storage? ≠ some .f32) {code : Code}
    (h : initMembers sc x fields entries = .ok code) {before : MachineState}
    (hroom : ∀ e ∈ entries, before.addressOf x + e.2.offset + e.2.ty.size ≤ before.memory.size) :
    ∃ after, code.execute env [] before = .ok ([], after) ∧
      MachineState.Filled x (FieldInit.given sc.arena fields) entries before after := by
  induction entries generalizing code before with
  | nil =>
    cases h
    exact ⟨before, rfl, rfl, fun _ _ => rfl, fun _ _ => rfl, nofun, nofun⟩
  | cons entry rest ih =>
    obtain ⟨member, layout⟩ := entry
    simp only [initMembers, Compiled.bind_ok, Compiled.pure_ok] at h
    obtain ⟨first, hfirst, others, hothers, rfl⟩ := h
    obtain ⟨s, hs, rfl⟩ := initMember_constant hfields hfirst
    obtain ⟨hbehind, hspread⟩ := List.pairwise_cons.mp hspread
    obtain ⟨hint, hints⟩ := List.forall_mem_cons.mp hints
    obtain ⟨hroomFirst, hroom⟩ := List.forall_mem_cons.mp hroom
    have hfloat : s ≠ .f32 := by
      rintro rfl
      exact hint hs
    have hroomFirst : before.addressOf x + layout.offset + s.size ≤ before.memory.size := by
      rwa [Ty.storage?_size hs]
    have hroomRest : ∀ e ∈ rest,
        (before.give x member s layout.offset
          (FieldInit.given sc.arena fields member)).addressOf x +
          e.2.offset + e.2.ty.size ≤ before.memory.size := by
      rwa [MachineState.addressOf_give]
    obtain ⟨after, hafter, hfilled⟩ := ih hspread hints hothers hroomRest
    refine ⟨after, ?_, hfilled.cons hs hfloat hbehind⟩
    rw [Code.execute_append, execute_give hfloat member _ hroomFirst]
    exact hafter

end Filling

/-! ## The block of a literal -/

/-- Storing values over a struct in memory leaves its bytes as they are exactly if they were the
bytes of these values. -/
theorem MachineState.Filled.shows_iff {x : String} {value previous : String → Constant}
    {layout : StructLayout} {before after : MachineState}
    (h : Filled x value layout.members.entries before after) {bytes : List UInt8}
    (hencodes : layout.Encodes previous bytes)
    (hbefore : before.memory.Shows (before.addressOf x) bytes) :
    after.memory.Shows (before.addressOf x) bytes ↔ ∀ e ∈ layout.members.entries, ∀ s,
      e.2.ty.storage? = some s → (value e.1).encode s = (previous e.1).encode s := by
  constructor
  · intro hafter e he s hs
    refine (h.shows e he s hs).unique (hafter.part (hencodes.members e he s hs)) ?_
    rw [Constant.length_encode, Constant.length_encode]
  · intro hsame k b hb
    -- A byte belongs to a member and was stored, or to none and was not touched.
    by_cases hmember : ∃ e ∈ layout.members.entries, e.2.offset ≤ k ∧ k < e.2.offset + e.2.ty.size
    · obtain ⟨e, he, hlow, hhigh⟩ := hmember
      obtain ⟨s, hs⟩ : ∃ s, e.2.ty.storage? = some s := Ty.exists_storage? (by omega)
      have hk : k - e.2.offset < ((previous e.1).encode s).length := by
        rw [Constant.length_encode, Ty.storage?_size hs]
        omega
      have hpart := DataBlock.hasAt_iff.mp (hencodes.members e he s hs) _ hk
      rw [Nat.add_sub_cancel' hlow, hb, ← hsame e he s hs] at hpart
      have hbyte := h.shows e he s hs _ b hpart.symm
      rwa [Nat.add_assoc, Nat.add_sub_cancel' hlow] at hbyte
    · rw [h.outside (before.addressOf x + k) fun e he => ?_]
      · exact hbefore k b hb
      · have hnot : ¬ (e.2.offset ≤ k ∧ k < e.2.offset + e.2.ty.size) :=
          fun hinside => hmember ⟨e, he, hinside⟩
        omega

/-- The block of a struct literal has the bytes of the literal. -/
theorem Module.extract_struct {m : Module} {base : Nat} {info : ModuleInfo}
    (h : m.extract base = .ok info) {id : ExprId} {name : String} {fields : List FieldInit}
    (hid : m.arena.expr? id = some (.struct name fields)) {address : Nat}
    (haddress : info.literals.get? id = some address) :
    ∃ bytes, Placement.encodeStruct m.arena info.structs name fields = .ok bytes ∧
      ⟨address, bytes⟩ ∈ info.data.segments := by
  obtain ⟨b, hb, rfl, parts, hcomposed, hbytes⟩ := extract_located h haddress
  have horigin : BlockOrigin.of m.arena id = .literal id := by
    simp only [BlockOrigin.of, hid]
  rw [horigin] at hcomposed
  cases hcomposed with
  | array hid' _ =>
    cases hid.symm.trans hid'
  | struct hid' hencode =>
    cases hid.symm.trans hid'
    have hsame : b.bytes = _ := hbytes.trans (List.flatMap_singleton _ _)
    exact ⟨b.bytes, hsame ▸ hencode, List.mem_append_right _ hb⟩

/-- The `let` of a struct literal of integers stores every member over the bytes of the literal, and
puts it into its local, as its first initialiser has it; nothing else changes. The bytes are those
of the last initialisers. So they stay as they are exactly if the first and the last initialiser of
a member leave the same bytes in it, and always if no member is initialised twice. -/
theorem struct_let_keeps_literal_iff {m : Module} {base : Nat} {info : ModuleInfo}
    (hextract : m.extract base = .ok info) {sc : Scope} (harena : sc.arena = m.arena)
    (hstructs : sc.info.structs = info.structs) (hliterals : sc.info.literals = info.literals)
    {decl : LetDecl} {structName : String} {fields : List FieldInit} {layout : StructLayout}
    (hinit : m.arena.expr? decl.init = some (.struct structName fields))
    (hlayout : sc.info.structLayout structName = .ok layout)
    (hints : ∀ e ∈ layout.members.entries, e.2.ty.storage? ≠ some .f32)
    {locals : Table String Variable} {code : Code} {names : List String}
    (hcode : letCode sc locals decl = .ok (code, names)) :
    ∃ address bytes, info.literals.get? decl.init = some address ∧
      Placement.encodeStruct m.arena info.structs structName fields = .ok bytes ∧
      ⟨address, bytes⟩ ∈ info.data.segments ∧
      ∀ env before, before.memory.Carries info.data.segments →
        ∃ after, code.execute env [] before = .ok ([], after) ∧
          after.registers (.localVar decl.name) = .ofNat 32 address ∧
          (∀ e ∈ layout.members.entries,
            after.held decl.name e.1 = (FieldInit.given m.arena fields e.1).word) ∧
          (∀ v, v ≠ .localVar decl.name →
            (∀ e ∈ layout.members.entries, v ≠ .localVar (Scope.flattenedName decl.name e.1)) →
            after.registers v = before.registers v) ∧
          after.memory.size = before.memory.size ∧
          (∀ i, i < address ∨ address + bytes.length ≤ i →
            after.memory.bytes i = before.memory.bytes i) ∧
          (after.memory.Shows address bytes ↔ ∀ e ∈ layout.members.entries, ∀ s,
            e.2.ty.storage? = some s → (FieldInit.given m.arena fields e.1).encode s =
              (FieldInit.given m.arena fields.reverse e.1).encode s) ∧
          ((fields.map FieldInit.name).Nodup → after.memory.Shows address bytes) := by
  rw [← harena] at hinit
  obtain ⟨address, members, haddress, hmembers, rfl⟩ := letCode_struct hinit hlayout hcode
  rw [hliterals] at haddress
  rw [harena] at hinit
  obtain ⟨bytes, hbytes, hblock⟩ := Module.extract_struct hextract hinit haddress
  -- Only structs of the module itself can be encoded, so this is the layout that code uses.
  have hown : info.structs.get? structName = some layout := by
    unfold ModuleInfo.structLayout at hlayout
    rw [hstructs] at hlayout
    unfold Placement.encodeStruct at hbytes
    cases hget : info.structs.get? structName with
    | none =>
      rw [hget] at hbytes
      cases hbytes
    | some own =>
      rw [hget] at hlayout
      cases hlayout
      rfl
  have hfits := Module.extract_fits hextract hown
  have hencodes := Placement.encodeStruct_encodes hfits hown hbytes
  have hlimit := (Module.extract_data hextract).laid.limit _ hblock
  refine ⟨address, bytes, haddress, hbytes, hblock, fun env before hcarries => ?_⟩
  obtain ⟨hstop, hshows⟩ := hcarries _ hblock
  -- Members are filled in the state where the variable has the address of the literal.
  let bound := before.setLocal decl.name (.ofNat 32 address)
  have hbound : bound.addressOf decl.name = address := by
    have hsmall : address < 2 ^ 32 := Nat.lt_of_le_of_lt (Nat.le_add_right _ _) hlimit
    show ((before.setLocal decl.name (.ofNat 32 address)).registers _).toNat = _
    rw [MachineState.setLocal_self, BitVec.toNat_ofNat, Nat.mod_eq_of_lt hsmall]
  have hroom : ∀ e ∈ layout.members.entries,
      bound.addressOf decl.name + e.2.offset + e.2.ty.size ≤ bound.memory.size := by
    intro e he
    have hwithin := hfits.within e he
    rw [hbound, Nat.add_assoc]
    refine Nat.le_trans (Nat.add_le_add_left hwithin address) ?_
    rw [← hencodes.length]
    exact hstop
  obtain ⟨after, hrun, hfilled⟩ := initMembers_filled
    (harena ▸ Placement.encodeStruct_constants hbytes) hfits.spread hints hmembers hroom
  have hiff := hfilled.shows_iff hencodes (hbound ▸ hshows)
  rw [hbound, harena] at hiff
  refine ⟨after, ?_, ?_, ?_, ?_, hfilled.size, ?_, hiff, ?_⟩
  · rw [Code.execute_append]
    exact hrun
  · rw [hfilled.kept _ fun e _ heq => Scope.flattenedName_ne decl.name e.1
      (Register.localVar.inj heq).symm]
    exact before.setLocal_self _ _
  · rw [← harena]
    exact hfilled.held
  · intro v hv hmembers
    rw [hfilled.kept v hmembers]
    exact if_neg hv
  · intro i hi
    refine hfilled.outside i fun e he => ?_
    have hwithin := hfits.within e he
    rw [hbound]
    rw [hencodes.length] at hi
    omega
  · intro hnodup
    refine hiff.mpr fun e _ s _ => ?_
    rw [FieldInit.given_reverse hnodup]

/-- A member that is initialised twice: `let b = S { m: 1, m: 2 }`. -/
def twice : Module where
  name := "twice"
  items := [0, 3]
  arena := {
    exprs := #[.int 1, .int 2, .struct "S" [⟨"m", 0⟩, ⟨"m", 1⟩]]
    stmts := #[
      .struct ⟨"S", [⟨"m", .i32⟩], false⟩,
      .letting ⟨"b", none, 2, false⟩,
      .block [1],
      .function ⟨"f", [], .void, 2, false⟩] }

namespace twice

def layout : StructLayout := ⟨"S", 4, false, ⟨[("m", ⟨0, 4, .i32⟩)]⟩⟩

def info : ModuleInfo where
  name := "twice"
  structs := ⟨[("S", layout)]⟩
  functions := ⟨[("f", ⟨⟨[], .void⟩, false, 3⟩)]⟩
  data := { base := 16, cursor := 20, blocks := [⟨16, [2, 0, 0, 0]⟩] }
  literals := ⟨[(2, 16)]⟩

theorem extract_eq : twice.extract 16 = .ok info := by decide +kernel

def scope : Scope := ⟨info, twice.arena, none⟩

def code : Code := .ofList [
  .intConst 16, .localSet "b", .localGet "b", .intConst 1, .localTee "b_m", .store .i32 0]

theorem letCode_eq : letCode scope {} ⟨"b", none, 2, false⟩ = .ok (code, ["b", "b_m"]) := by
  decide +kernel

def state : MachineState := ⟨fun _ => 0, .instantiate 65536 info.data.segments⟩

theorem carries : state.memory.Carries info.data.segments :=
  Memory.instantiate_carries (Module.extract_data extract_eq).laid (by decide)

end twice

/-- The literal has two in its block. The `let` puts one into the local of the member, and stores it
over the block. -/
theorem twice_overwrites_literal : twice.extract 16 = .ok twice.info ∧
    letCode twice.scope {} ⟨"b", none, 2, false⟩ = .ok (twice.code, ["b", "b_m"]) ∧
    twice.state.memory.Carries twice.info.data.segments ∧
    ⟨16, [2, 0, 0, 0]⟩ ∈ twice.info.data.segments ∧
    ∀ env, ∃ after, twice.code.execute env [] twice.state = .ok ([], after) ∧
      after.held "b" "m" = 1 ∧ ¬ after.memory.Shows 16 [2, 0, 0, 0] := by
  refine ⟨twice.extract_eq, twice.letCode_eq, twice.carries, by decide, fun env => ?_⟩
  have hints : ∀ e ∈ twice.layout.members.entries, e.2.ty.storage? ≠ some .f32 := by decide
  have hlayout : twice.scope.info.structLayout "S" = .ok twice.layout := by decide
  obtain ⟨address, bytes, haddress, hbytes, -, hruns⟩ :=
    struct_let_keeps_literal_iff twice.extract_eq rfl rfl rfl rfl hlayout hints twice.letCode_eq
  cases haddress
  have hdata : bytes = [2, 0, 0, 0] := Except.ok.inj (hbytes.symm.trans (by decide +kernel))
  subst hdata
  obtain ⟨after, hrun, -, hheld, -, -, -, hiff, -⟩ := hruns env twice.state twice.carries
  refine ⟨after, hrun, ?_, fun hshows => ?_⟩
  · rw [hheld ("m", ⟨0, 4, .i32⟩) (by decide)]
    decide +kernel
  · have hsame := hiff.mp hshows ("m", ⟨0, 4, .i32⟩) (by decide) .i32 rfl
    exact absurd hsame (by decide +kernel)

end WasmBackend
