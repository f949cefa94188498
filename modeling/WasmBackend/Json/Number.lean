import WasmBackend.Json.Value

/-!
# Reading numbers

A number is read as an integer when it is written as one and fits a machine word: unsigned 64 bits
without a sign, signed 64 bits with one. A minus sign before a bare zero asks for the negative zero
that only a double has.

Everything else is a double. Its digits are taken as one integer as long as that fits 64 bits, later
digits only shift the exponent (before the point) or are dropped (after it), and the integer is then
scaled by a power of ten. Each of these steps rounds to nearest, so the result can be a last place
away from the correctly rounded one; it is the value every reader of these files agrees on.
-/

namespace WasmBackend.Json

/-- A number as written: sign, digits before and after the point, exponent if there is one. -/
structure NumberLiteral where
  negative : Bool
  whole : List Nat
  fraction : List Nat
  exponent : Option Int

/-- Extends `significand` by leading digits while it fits 64 bits; the digits left over follow. -/
def leadingDigits (significand : Nat) : List Nat → Nat × List Nat
  | [] => (significand, [])
  | d :: rest =>
    if 10 * significand + d < 0x10000000000000000 then leadingDigits (10 * significand + d) rest
    else (significand, d :: rest)

/-- The double nearest to a power of ten, exactly. -/
def powerOfTen (k : Nat) : Nat × Nat :=
  (Binary64.ofMagnitude false (BinaryFormat.double.round (Nat.pow 10 k) 1)).ratio

/-- The largest power of ten that a double reaches. -/
def maxPower : Nat := 308

/-- A magnitude divided by a power of ten, in steps of the largest one. -/
def divPower (magnitude k : Nat) : Nat :=
  let value := (Binary64.ofMagnitude false magnitude).ratio
  if _h : k ≤ maxPower then
    let p := powerOfTen k
    BinaryFormat.double.round (value.1 * p.2) (value.2 * p.1)
  else if magnitude = 0 then 0
  else
    let p := powerOfTen maxPower
    divPower (BinaryFormat.double.round (value.1 * p.2) (value.2 * p.1)) (k - maxPower)
termination_by k
decreasing_by simp [maxPower] at *; omega

/-- `significand · 10^exponent` as a magnitude, unless it is too large for a double. -/
def scaleDecimal? (significand : Nat) (exponent : Int) : Option Nat :=
  let magnitude := BinaryFormat.double.round significand 1
  match exponent with
  | .ofNat k =>
    if k ≤ maxPower then
      let value := (Binary64.ofMagnitude false magnitude).ratio
      let p := powerOfTen k
      let scaled := BinaryFormat.double.round (value.1 * p.1) (value.2 * p.2)
      if scaled < BinaryFormat.double.infinity then some scaled else none
    else if magnitude = 0 then some 0
    else none
  | .negSucc k => some (divPower magnitude (k + 1))

namespace NumberLiteral

/-- The value as a double, if it is in range. -/
def toBinary64? (n : NumberLiteral) : Option Binary64 :=
  let (high, dropped) := leadingDigits 0 n.whole
  let (significand, ignored) := leadingDigits high n.fraction
  let places : Int := (dropped.length : Int) - (n.fraction.length - ignored.length : Nat)
  let shift : Int := n.exponent.getD 0
  (scaleDecimal? significand (places + shift)).map (Binary64.ofMagnitude n.negative)

/-- The value as an integer, if it is written as one and fits. -/
def toInt? (n : NumberLiteral) : Option Int :=
  if n.fraction.isEmpty ∧ n.exponent.isNone then
    let value : Nat := n.whole.foldl (fun acc d => 10 * acc + d) 0
    if n.negative then
      if 0 < value ∧ value ≤ 0x8000000000000000 then some (-(value : Int)) else none
    else if value < 0x10000000000000000 then some value
    else none
  else none

def toJson (n : NumberLiteral) : Json :=
  match n.toInt? with
  | some value => .int value
  | none =>
    match n.toBinary64? with
    | some x => .float x
    | none => .undefined

end NumberLiteral

end WasmBackend.Json
