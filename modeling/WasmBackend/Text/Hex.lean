/-!
# Hexadecimal

Bytes as pairs of lowercase digits, and back.
-/

namespace WasmBackend.Text

/-- The lowercase digit of a number below sixteen. -/
def hexDigit (n : Nat) : Char :=
  if n < 10 then Char.ofNat (48 + n) else Char.ofNat (87 + n)

/-- The value of a digit of either case. -/
def hexValue? (c : Char) : Option Nat :=
  let n := c.toNat
  if 48 ≤ n ∧ n ≤ 57 then some (n - 48)
  else if 97 ≤ n ∧ n ≤ 102 then some (n - 87)
  else if 65 ≤ n ∧ n ≤ 70 then some (n - 55)
  else none

theorem hexValue?_hexDigit {n : Nat} (h : n < 16) : hexValue? (hexDigit n) = some n := by
  decide +revert

/-- Two digits, high one first. -/
def hexByte (b : UInt8) : List Char := [hexDigit (b.toNat / 16), hexDigit (b.toNat % 16)]

def hexOfBytes (bytes : List UInt8) : String := String.ofList (bytes.flatMap hexByte)

def bytesOfHex? : List Char → Option (List UInt8)
  | [] => some []
  | [_] => none
  | high :: low :: rest => do
    let h ← hexValue? high
    let l ← hexValue? low
    return UInt8.ofNat (16 * h + l) :: (← bytesOfHex? rest)

/-- A number as `width` digits. -/
def hexOfNat (width n : Nat) : String :=
  String.ofList ((List.range width).map fun i => hexDigit (n / Nat.pow 16 (width - 1 - i) % 16))

/-- The number that a string of digits spells. -/
def natOfHex? (s : String) : Option Nat :=
  s.toList.foldl (fun acc c => do return 16 * (← acc) + (← hexValue? c)) (some 0)

end WasmBackend.Text
