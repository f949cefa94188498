import WasmBackend.Proofs.Data.Arrays
import WasmBackend.Proofs.Memory.Machine

/-!
# Constant data in memory

When a program starts, its data blocks are copied into memory (`Memory.instantiate`). From then on
memory carries them (`Memory.Carries`) for as long as nothing is stored over them, and a load finds
what was written into a block: a constant wrapped to the width of its slot, or an address. Slots
that hold floats are left out.
-/

namespace WasmBackend

/-! ## Slots -/

namespace Scalar

theorem size_pos (s : Scalar) : 0 < s.size := by cases s <;> decide

/-- What is left of a number in a slot, read with a sign or without one. -/
def wrap (s : Scalar) (n : Int) : Int :=
  if s.isSigned then n.bmod (256 ^ s.size) else n % (256 ^ s.size : Nat)

-- A byte keeps 300 modulo 256, and a signed byte takes 200 for a negative number.
example : u8.wrap 300 = 44 ∧ i8.wrap 200 = -56 ∧ u8.narrow 300 = 44 ∧ i8.narrow 200 = -56 := by
  decide

/-- The low bytes of a number extend to what is left of it. -/
theorem extend_mod (s : Scalar) (n : Int64) :
    s.extend (n.toUInt64.toNat % 256 ^ s.size) = .ofInt 32 (s.wrap n.toInt) := by
  have hn : n.toInt = (n.toUInt64.toNat : Int).bmod (2 ^ 64) := BitVec.toInt_eq_toNat_bmod _
  generalize n.toUInt64.toNat = bits at hn
  have hdvd : 256 ^ s.size ∣ 2 ^ 64 := by cases s <;> decide
  have hdvd' : ((256 ^ s.size : Nat) : Int) ∣ (2 ^ 64 : Nat) := Int.natCast_dvd_natCast.mpr hdvd
  have hpow : 256 ^ s.size = 2 ^ (8 * s.size) := by rw [Nat.pow_mul]
  have htoNat : (BitVec.ofNat (8 * s.size) (bits % 256 ^ s.size)).toNat = bits % 256 ^ s.size := by
    rw [BitVec.toNat_ofNat, hpow, Nat.mod_mod]
  unfold extend wrap
  rw [hn]
  split
  · show BitVec.ofInt 32 (BitVec.ofNat (8 * s.size) (bits % 256 ^ s.size)).toInt = _
    rw [BitVec.toInt_eq_toNat_bmod, htoNat, ← hpow, Int.natCast_emod, Int.emod_bmod,
      Int.bmod_bmod_of_dvd hdvd]
  · have hlow : (bits : Int).bmod (2 ^ 64) % (256 ^ s.size : Nat) =
        (bits % 256 ^ s.size : Nat) := by
      rw [← Int.emod_emod_of_dvd _ hdvd', Int.bmod_emod, Int.emod_emod_of_dvd _ hdvd',
        Int.natCast_emod]
    rw [hlow, BitVec.ofInt_natCast]
    apply BitVec.eq_of_toNat_eq
    rw [BitVec.toNat_setWidth, htoNat, BitVec.toNat_ofNat]

/-- A slot of four bytes holds a word, whatever its sign. -/
theorem extend_word {s : Scalar} (h : s.size = 4) (n : Nat) : s.extend n = .ofNat 32 n := by
  cases s <;> first | exact absurd h (by decide) | simp [extend, isSigned, size]

end Scalar

/-- In every slot but that of a float a constant is an integer. -/
theorem Constant.encode_of_ne_f32 {s : Scalar} (hs : s ≠ .f32) (c : Constant) :
    c.encode s = littleEndian s.size c.toInt64.toUInt64.toNat := by
  cases s <;> first | rfl | exact absurd rfl hs

/-! ## Memory that carries blocks -/

namespace Memory

variable {m : Memory} {blocks : List DataBlock}

/-- The bytes stand in memory from this address on. -/
def Shows (m : Memory) (address : Nat) (bytes : List UInt8) : Prop :=
  ∀ k b, bytes[k]? = some b → m.bytes (address + k) = b.toBitVec

/-- Every block is in memory, at its address. -/
def Carries (m : Memory) (blocks : List DataBlock) : Prop :=
  ∀ b ∈ blocks, b.stop ≤ m.size ∧ m.Shows b.address b.bytes

/-- Copies a block to its address. -/
def copy (m : Memory) (b : DataBlock) : Memory :=
  { m with bytes := fun i =>
      match if b.address ≤ i then b.bytes[i - b.address]? else none with
      | some byte => byte.toBitVec
      | none => m.bytes i }

/-- Zeroed memory with the blocks copied into it. -/
def instantiate (size : Nat) (blocks : List DataBlock) : Memory :=
  blocks.foldl copy ⟨size, fun _ => 0⟩

theorem size_foldl_copy (m : Memory) (blocks : List DataBlock) :
    (blocks.foldl copy m).size = m.size := by
  induction blocks generalizing m with
  | nil => rfl
  | cons b rest ih => exact ih (m.copy b)

theorem copy_shows (m : Memory) (b : DataBlock) : (m.copy b).Shows b.address b.bytes := by
  intro k byte hbyte
  simp [copy, hbyte]

/-- A copied block leaves the blocks apart from it as they are. -/
theorem Shows.copy {b other : DataBlock} (h : m.Shows b.address b.bytes) (hapart : b.Apart other) :
    (m.copy other).Shows b.address b.bytes := by
  intro k byte hbyte
  obtain ⟨hk, -⟩ := List.getElem?_eq_some_iff.mp hbyte
  have houtside : (if other.address ≤ b.address + k then
      other.bytes[b.address + k - other.address]? else none) = none := by
    split
    · next hle =>
      refine List.getElem?_eq_none ?_
      unfold DataBlock.Apart DataBlock.stop at hapart
      omega
    · rfl
  simp only [Memory.copy, houtside]
  exact h k byte hbyte

theorem Shows.foldl_copy {b : DataBlock} (h : m.Shows b.address b.bytes)
    (hapart : ∀ other ∈ blocks, b.Apart other) :
    (blocks.foldl Memory.copy m).Shows b.address b.bytes := by
  induction blocks generalizing m with
  | nil => exact h
  | cons first rest ih =>
    exact ih (h.copy (hapart first List.mem_cons_self))
      fun other hother => hapart other (List.mem_cons_of_mem _ hother)

/-- Blocks that lie apart are all there after they were copied. -/
theorem instantiate_carries {low high size : Nat} (h : DataBlock.Laid low high blocks)
    (hsize : high ≤ size) : (instantiate size blocks).Carries blocks := by
  have hshows : ∀ (m : Memory), ∀ b ∈ blocks,
      (blocks.foldl copy m).Shows b.address b.bytes := by
    have hpairwise := h.apart
    clear h
    induction blocks with
    | nil => intro m b hb; cases hb
    | cons first rest ih =>
      obtain ⟨hfirst, hrest⟩ := List.pairwise_cons.mp hpairwise
      intro m b hb
      rcases List.mem_cons.mp hb with rfl | hb
      · exact (m.copy_shows b).foldl_copy hfirst
      · exact ih hrest (m.copy first) b hb
  intro b hb
  refine ⟨?_, hshows _ b hb⟩
  rw [instantiate, size_foldl_copy]
  exact (h.within b hb).2.trans hsize

/-! ## Reading from a block -/

/-- A part of what is shown is shown. -/
theorem Shows.part {address offset : Nat} {bytes part : List UInt8} (h : m.Shows address bytes)
    (hpart : DataBlock.HasAt bytes offset part) : m.Shows (address + offset) part := by
  intro k byte hbyte
  have hk : k < part.length := (List.getElem?_eq_some_iff.mp hbyte).1
  rw [Nat.add_assoc]
  refine h (offset + k) byte ?_
  rw [← hpart, List.getElem?_take, if_pos hk, List.getElem?_drop] at hbyte
  exact hbyte

theorem Shows.number_littleEndian {address count n : Nat}
    (h : m.Shows address (littleEndian count n)) : m.number address count = n % 256 ^ count := by
  induction count generalizing address n with
  | zero => simp [number, Nat.mod_one]
  | succ count ih =>
    have hlow : (m.bytes address).toNat = n % 256 := by
      have hbyte := h 0 _ rfl
      rw [Nat.add_zero] at hbyte
      simp [hbyte]
    have hhigh : m.Shows (address + 1) (littleEndian count (n / 256)) := by
      intro k byte hbyte
      rw [Nat.add_assoc, Nat.add_comm 1 k]
      exact h (k + 1) byte hbyte
    rw [number, hlow, ih hhigh, Nat.pow_succ', Nat.mod_mul]

theorem Carries.number_eq (hm : m.Carries blocks) {address offset count n : Nat}
    {bytes : List UInt8} (hblock : ⟨address, bytes⟩ ∈ blocks)
    (hpart : DataBlock.HasAt bytes offset (littleEndian count n)) :
    m.number (address + offset) count = n % 256 ^ count :=
  ((hm _ hblock).2.part hpart).number_littleEndian

/-- A number that was written into a block is read back as far as it fits. -/
theorem load_littleEndian (hm : m.Carries blocks) (hlimit : ∀ b ∈ blocks, b.stop < addressSpace)
    {address offset n : Nat} {bytes : List UInt8} (hblock : ⟨address, bytes⟩ ∈ blocks) (s : Scalar)
    (hpart : DataBlock.HasAt bytes offset (littleEndian s.size n)) :
    m.load s (.ofNat 32 (address + offset)) 0 = .ok (s.extend (n % 256 ^ s.size)) := by
  have hsize := (hm _ hblock).1
  have hlimit := hlimit _ hblock
  have hlength : offset + s.size ≤ bytes.length := by
    simpa using hpart.le_length (by simpa using s.size_pos)
  have hstop : (⟨address, bytes⟩ : DataBlock).stop = address + bytes.length := rfl
  have htoNat : (BitVec.ofNat 32 (address + offset)).toNat = address + offset := by
    rw [BitVec.toNat_ofNat]
    unfold addressSpace at hlimit
    omega
  have hholds : m.holds s (.ofNat 32 (address + offset)) 0 = true := by
    unfold holds
    rw [htoNat]
    exact decide_eq_true (by omega)
  rw [load_eq, if_pos hholds, htoNat, Nat.add_zero, hm.number_eq hblock hpart]

theorem load_constant (hm : m.Carries blocks) (hlimit : ∀ b ∈ blocks, b.stop < addressSpace)
    {address offset : Nat} {bytes : List UInt8} (hblock : ⟨address, bytes⟩ ∈ blocks) {s : Scalar}
    (hs : s ≠ .f32) {c : Constant} (hpart : DataBlock.HasAt bytes offset (c.encode s)) :
    m.load s (.ofNat 32 (address + offset)) 0 = .ok (.ofInt 32 (s.wrap c.toInt64.toInt)) := by
  rw [c.encode_of_ne_f32 hs] at hpart
  rw [load_littleEndian hm hlimit hblock s hpart, Scalar.extend_mod]

/-- Loads of four bytes do not differ. -/
theorem load_word {s : Scalar} (hs : s.size = 4) (base : Word) (offset : Nat) :
    m.load s base offset = m.load .i32 base offset := by
  rw [load_eq, load_eq, holds, holds, Scalar.extend_word hs, hs, Scalar.extend_word (s := .i32) rfl]
  rfl

theorem load_address (hm : m.Carries blocks) (hlimit : ∀ b ∈ blocks, b.stop < addressSpace)
    {address offset target : Nat} {bytes : List UInt8} (hblock : ⟨address, bytes⟩ ∈ blocks)
    (hpart : DataBlock.HasAt bytes offset (littleEndian 4 target)) (htarget : target < addressSpace)
    {s : Scalar} (hs : s.size = 4) :
    m.load s (.ofNat 32 (address + offset)) 0 = .ok (.ofNat 32 target) := by
  rw [← hs] at hpart
  rw [load_littleEndian hm hlimit hblock s hpart, Scalar.extend_word hs, hs,
    Nat.mod_eq_of_lt (show target < 256 ^ 4 from htarget)]

end Memory

end WasmBackend
