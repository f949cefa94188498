/-!
# Binary floating point, in exact arithmetic

A float literal is carried as its bit pattern, and every operation on it is defined over `Nat` and
`Int`: decoding a magnitude into `m · 2^e`, rounding an exact quotient back to the nearest
magnitude (a tie goes to the even significand), and the conversions between widths and to integers
that the back end needs. Nothing here goes through the machine's own float operations, so each
definition can be unfolded.

A *magnitude* is a bit pattern with the sign bit cleared. Magnitudes order like the values they
stand for, which is why one formula (`pack`) covers subnormal and normal results and why a carry
out of the significand needs no separate case.
-/

namespace WasmBackend

/-- A binary interchange format: the significand's width, its hidden bit included, and the width of
the exponent field. -/
structure BinaryFormat where
  precision : Nat
  exponentBits : Nat
  deriving DecidableEq

namespace BinaryFormat

def single : BinaryFormat := ⟨24, 8⟩
def double : BinaryFormat := ⟨53, 11⟩

def bias (f : BinaryFormat) : Nat := Nat.pow 2 (f.exponentBits - 1) - 1

/-- The exponent of the last significand bit of a subnormal. -/
def minExponent (f : BinaryFormat) : Int := 2 - (f.bias : Int) - f.precision

/-- The weight of the hidden bit, and of one step of the exponent field. -/
def hidden (f : BinaryFormat) : Nat := Nat.pow 2 (f.precision - 1)

/-- The magnitude of infinity: an exponent field of ones over a zero fraction. -/
def infinity (f : BinaryFormat) : Nat := (Nat.pow 2 f.exponentBits - 1) * f.hidden

/-- The weight of the sign bit. -/
def signBit (f : BinaryFormat) : Nat := Nat.pow 2 f.exponentBits * f.hidden

/-- `m` and `e` with value `m · 2^e`, for a finite magnitude. -/
def decode (f : BinaryFormat) (magnitude : Nat) : Nat × Int :=
  if magnitude < f.hidden then (magnitude, f.minExponent)
  else (magnitude % f.hidden + f.hidden, f.minExponent + (magnitude / f.hidden : Nat) - 1)

/-- The magnitude with value `m · 2^e`, for `m` at most twice the hidden bit's weight. -/
def pack (f : BinaryFormat) (m : Nat) (e : Int) : Nat :=
  min (((e - f.minExponent).toNat) * f.hidden + m) f.infinity

end BinaryFormat

/-- `num / den` scaled by `2^e`, as a numerator and a denominator. -/
def scaleByPow2 (num den : Nat) (e : Int) : Nat × Nat :=
  match e with
  | .ofNat k => (num * Nat.pow 2 k, den)
  | .negSucc k => (num, den * Nat.pow 2 (k + 1))

/-- The integer nearest to `num / den`; a half goes to the even neighbour. -/
def roundHalfEven (num den : Nat) : Nat :=
  let q := num / den
  let r := num % den
  if den < 2 * r ∨ (2 * r = den ∧ q % 2 = 1) then q + 1 else q

namespace BinaryFormat

/-- The exponent at which `num / den` has a full significand, or the least one there is. -/
def exponentFor (f : BinaryFormat) (num den : Nat) : Int :=
  let guess : Int := (num.log2 : Int) - den.log2 - f.precision
  let (n, d) := scaleByPow2 num den (-guess)
  -- The quotient of the logarithms is at most one off.
  let e := if n < d * Nat.pow 2 f.precision then guess else guess + 1
  max e f.minExponent

/-- The magnitude nearest to `num / den`; values past the largest one round to infinity. -/
def round (f : BinaryFormat) (num den : Nat) : Nat :=
  if num = 0 then 0
  else
    let e := f.exponentFor num den
    let (n, d) := scaleByPow2 num den (-e)
    f.pack (roundHalfEven n d) e

end BinaryFormat

/-! ## The two widths -/

/-- A single precision bit pattern. -/
structure Binary32 where
  bits : UInt32
  deriving DecidableEq, Inhabited

/-- A double precision bit pattern. -/
structure Binary64 where
  bits : UInt64
  deriving DecidableEq, Inhabited

/-- Sign and magnitude of a bit pattern. -/
def BinaryFormat.split (f : BinaryFormat) (bits : Nat) : Bool × Nat :=
  (f.signBit ≤ bits, bits % f.signBit)

/-- The bit pattern with this sign and magnitude. -/
def BinaryFormat.join (f : BinaryFormat) (negative : Bool) (magnitude : Nat) : Nat :=
  if negative then f.signBit + magnitude else magnitude

namespace Binary32

def negative (x : Binary32) : Bool := (BinaryFormat.single.split x.bits.toNat).1
def magnitude (x : Binary32) : Nat := (BinaryFormat.single.split x.bits.toNat).2
def isFinite (x : Binary32) : Bool := x.magnitude < BinaryFormat.single.infinity
def isNaN (x : Binary32) : Bool := BinaryFormat.single.infinity < x.magnitude

def ofMagnitude (negative : Bool) (magnitude : Nat) : Binary32 :=
  ⟨UInt32.ofNat (BinaryFormat.single.join negative magnitude)⟩

end Binary32

namespace Binary64

def negative (x : Binary64) : Bool := (BinaryFormat.double.split x.bits.toNat).1
def magnitude (x : Binary64) : Nat := (BinaryFormat.double.split x.bits.toNat).2
def isFinite (x : Binary64) : Bool := x.magnitude < BinaryFormat.double.infinity
def isNaN (x : Binary64) : Bool := BinaryFormat.double.infinity < x.magnitude

def ofMagnitude (negative : Bool) (magnitude : Nat) : Binary64 :=
  ⟨UInt64.ofNat (BinaryFormat.double.join negative magnitude)⟩

/-- The value with the other sign; a NaN changes its sign bit too. -/
def neg (x : Binary64) : Binary64 := ofMagnitude (!x.negative) x.magnitude

instance : Neg Binary64 := ⟨neg⟩

/-- The magnitude's exact value, as a numerator and a denominator. -/
def ratio (x : Binary64) : Nat × Nat :=
  let (m, e) := BinaryFormat.double.decode x.magnitude
  scaleByPow2 m 1 e

/-- The nearest value to an integer. -/
def ofInt (n : Int) : Binary64 :=
  ofMagnitude (n < 0) (BinaryFormat.double.round n.natAbs 1)

/-- The nearest single precision value. A NaN stays one: it keeps its sign and the leading bits of
its payload, and becomes quiet. -/
def toBinary32 (x : Binary64) : Binary32 :=
  let single := BinaryFormat.single
  if x.isNaN then
    let payload := x.magnitude % BinaryFormat.double.hidden / Nat.pow 2 29
    .ofMagnitude x.negative (single.infinity + (payload % (single.hidden / 2) + single.hidden / 2))
  else if x.isFinite then
    let (num, den) := x.ratio
    .ofMagnitude x.negative (single.round num den)
  else .ofMagnitude x.negative single.infinity

/-- The integer part, clamped to the range of 64-bit integers; a NaN gives zero. -/
def toInt64 (x : Binary64) : Int64 :=
  if x.isNaN then 0
  else
    let limit := if x.negative then 0x8000000000000000 else 0x7fffffffffffffff
    let whole := if x.isFinite then min (x.ratio.1 / x.ratio.2) limit else limit
    Int64.ofInt (if x.negative then -(whole : Int) else whole)

end Binary64

end WasmBackend
