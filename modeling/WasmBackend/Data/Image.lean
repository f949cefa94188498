import WasmBackend.Symbols.Table
import WasmBackend.Diagnostic

/-!
# Constant data

A bump allocator over the 32-bit address space. Addresses only go up: a reservation starts at the
next multiple of its alignment and moves the cursor to its end. A request that does not fit is
answered with an error and the image as it is then.

Strings live apart from other blocks. The bytes of a string are stored once for every distinct
content, and a string value is the address of a *header*: two words, the length in bytes and the
address of the bytes. An empty string still takes up one byte, so that no two contents share an
address.
-/

namespace WasmBackend

/-- One past the last address. -/
def addressSpace : Nat := 0x100000000

/-- The little-endian bytes of a number, `count` of them; higher bits are dropped. -/
def littleEndian (count n : Nat) : List UInt8 :=
  match count with
  | 0 => []
  | count + 1 => UInt8.ofNat (n % 256) :: littleEndian count (n / 256)

structure DataBlock where
  address : Nat
  bytes : List UInt8
  deriving DecidableEq, Repr, Inhabited

/-- One past the block's last byte. -/
def DataBlock.stop (b : DataBlock) : Nat := b.address + b.bytes.length

structure DataImage where
  base : Nat
  cursor : Nat
  interned : Table String Nat := {}
  headers : Table String Nat := {}
  strings : List DataBlock := []
  blocks : List DataBlock := []
  deriving DecidableEq, Repr, Inhabited

namespace DataImage

/-- The first address used when nothing else is asked for. -/
def defaultBase : Nat := 16

/-- An image without data. -/
def startingAt (base : Nat) : DataImage := { base := base, cursor := base }

/-- The least multiple of `align` that is not below `n`. -/
def alignUp (n align : Nat) : Nat := (n + align - 1) / align * align

/-- An address and the image with it, or an error and the image to go on with. -/
abbrev Answer := Except (CompileError × DataImage) (Nat × DataImage)

/-- Reserves `size` bytes at a multiple of `align`. -/
def reserve (d : DataImage) (size align : Nat) : Answer :=
  if align = 0 then .error (.invalidAlignment align, d)
  else
    let address := alignUp d.cursor align
    if addressSpace ≤ address + size then .error (.addressOverflow size, d)
    else .ok (address, { d with cursor := address + size })

/-- Stores bytes at a multiple of `align`. -/
def addBlock (d : DataImage) (bytes : List UInt8) (align : Nat) : Answer := do
  let (address, d) ← d.reserve bytes.length align
  return (address, { d with blocks := d.blocks ++ [⟨address, bytes⟩] })

/-- The address of a string's bytes, stored now if they are new. -/
def intern (d : DataImage) (content : String) : Answer :=
  match d.interned.get? content with
  | some address => .ok (address, d)
  | none => do
    let bytes := content.toUTF8.toList
    let (address, d) ← d.reserve (max bytes.length 1) 1
    return (address, { d with
      strings := d.strings ++ [⟨address, bytes⟩]
      interned := d.interned.set content address })

/-- The address of a string's header, stored now if it is new. When the header itself does not fit,
the string's bytes may already be stored. -/
def header (d : DataImage) (content : String) : Answer :=
  match d.headers.get? content with
  | some address => .ok (address, d)
  | none => do
    let (data, d) ← d.intern content
    let (address, d) ←
      d.addBlock (littleEndian 4 content.utf8ByteSize ++ littleEndian 4 data) 4
    return (address, { d with headers := d.headers.set content address })

/-- The answer for one who gives up on an error. -/
def Answer.compiled (r : Answer) : Compiled (Nat × DataImage) := r.mapError Prod.fst

/-- All blocks: strings first, then the others, each in order of allocation. -/
def segments (d : DataImage) : List DataBlock := d.strings ++ d.blocks

end DataImage

end WasmBackend
