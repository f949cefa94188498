import WasmBackend.Number.Binary

/-!
# The fewest digits that read back

A finite value is written with the fewest decimal digits that still determine it. The reals that
round to a magnitude form an interval; on the grid of `n`-digit decimals only the two neighbours of
the value itself need to be tried, because the interval holds one of them as soon as it holds any
point of that grid. The first grid with a hit wins, and of two hits the nearer one.

Which of two equally near decimals is taken, and how the digits are laid out, is the business of
whoever prints them: `DecimalNotation` says where a tie goes, and from where to where numbers are
written positionally.
-/

namespace WasmBackend

/-- `digits · 10^exponent`. -/
structure ShortDecimal where
  digits : Nat
  exponent : Int
  deriving DecidableEq, Inhabited

/-- Which of two equally near decimals is taken: the one of larger magnitude, or the one whose last
digit is even. -/
inductive Tie where
  | up
  | even
  deriving DecidableEq, Repr

/-- Is the decimal above the value taken, when the one below has these digits and the value lies
`rest / den` of a step past it? -/
def Tie.roundsUp (tie : Tie) (below rest den : Nat) : Bool :=
  match compare (2 * rest) den with
  | .lt => false
  | .gt => true
  | .eq =>
    match tie with
    | up => true
    | even => below % 2 = 1

/-- The exact bounds of what rounds to one magnitude, over the common denominator `den`: the value
is `value / den`, and a real between `low / den` and `high / den` rounds to it. The ends belong to
the interval when the significand is even. -/
structure RoundingInterval where
  low : Nat
  value : Nat
  high : Nat
  den : Nat
  closed : Bool

namespace RoundingInterval

/-- Below a power of two the grid is twice as fine, so the lower gap is half as wide there. -/
def ofMagnitude (f : BinaryFormat) (magnitude : Nat) : RoundingInterval :=
  let (m, e) := f.decode magnitude
  let narrow := m = f.hidden ∧ f.minExponent < e
  let (low, value, high) :=
    if narrow then (4 * m - 1, 4 * m, 4 * m + 2) else (4 * m - 2, 4 * m, 4 * m + 2)
  match e - 2 with
  | .ofNat k => ⟨low * Nat.pow 2 k, value * Nat.pow 2 k, high * Nat.pow 2 k, 1, m % 2 = 0⟩
  | .negSucc k => ⟨low, value, high, Nat.pow 2 (k + 1), m % 2 = 0⟩

/-- Does `n / d` lie in the interval? -/
def contains (i : RoundingInterval) (n d : Nat) : Bool :=
  if i.closed then i.low * d ≤ n * i.den ∧ n * i.den ≤ i.high * d
  else i.low * d < n * i.den ∧ n * i.den < i.high * d

/-- The neighbour of the value on the grid of multiples of `10^exponent` that reads back and lies
nearest. -/
def onGrid? (i : RoundingInterval) (tie : Tie) (exponent : Int) : Option Nat :=
  -- One step of the grid is `step / unit`.
  let (step, unit) := match exponent with
    | .ofNat k => (Nat.pow 10 k, 1)
    | .negSucc k => (1, Nat.pow 10 (k + 1))
  let num := i.value * unit
  let den := i.den * step
  let below := num / den
  let lowOk := i.contains (below * step) unit
  let highOk := i.contains ((below + 1) * step) unit
  if lowOk ∧ highOk then
    if tie.roundsUp below (num % den) den then some (below + 1) else some below
  else if lowOk then some below
  else if highOk then some (below + 1)
  else none

end RoundingInterval

/-- The number of decimal digits of `n`; zero has one. -/
def decimalLength (n : Nat) : Nat := (Nat.toDigits 10 n).length

/-- The power of ten of the value's leading digit. -/
def leadingExponent (num den : Nat) : Int :=
  if den ≤ num then (decimalLength (num / den) : Int) - 1
  else
    -- `den / num` has `k` digits, so the value lies in `[10^(-k), 10^(1-k)]`.
    let k := decimalLength (den / num)
    if num * Nat.pow 10 (k - 1) < den then -(k : Int) else 1 - (k : Int)

/-- Drops trailing zeros, at most `fuel` of them. -/
def ShortDecimal.strip (fuel : Nat) (d : ShortDecimal) : ShortDecimal :=
  match fuel with
  | 0 => d
  | fuel + 1 =>
    if d.digits ≠ 0 ∧ d.digits % 10 = 0 then
      ShortDecimal.strip fuel ⟨d.digits / 10, d.exponent + 1⟩
    else d

/-- Tries grids of one digit, two digits, and so on up to `fuel` digits past `count`. -/
def RoundingInterval.search (i : RoundingInterval) (tie : Tie) (lead : Int) (fuel count : Nat) :
    ShortDecimal :=
  let exponent := lead - count
  match fuel with
  | 0 => ⟨i.value / i.den, 0⟩
  | fuel + 1 =>
    match i.onGrid? tie exponent with
    | some digits => ⟨digits, exponent⟩
    | none => i.search tie lead fuel (count + 1)

/-- The shortest decimal of a finite magnitude. Seventeen digits always determine a double. -/
def BinaryFormat.shortest (f : BinaryFormat) (tie : Tie) (magnitude : Nat) : ShortDecimal :=
  if magnitude = 0 then ⟨0, 0⟩
  else
    let i := RoundingInterval.ofMagnitude f magnitude
    (i.search tie (leadingExponent i.value i.den) 18 0).strip 400

/-! ## Layout -/

/-- How numbers are written: positionally for leading exponents from `least` up to, not including,
`bound`, with an exponent outside that range, and ties between two decimals decided by `tie`. -/
structure DecimalNotation where
  least : Int
  bound : Int
  tie : Tie
  deriving DecidableEq

namespace DecimalNotation

private def zeros (n : Nat) : String := String.ofList (List.replicate n '0')

/-- Positional notation, with at least one digit on each side of the point. -/
def positional (d : ShortDecimal) : String :=
  let digits := Nat.toDigits 10 d.digits
  match d.exponent with
  | .ofNat k => String.ofList digits ++ zeros k ++ ".0"
  | .negSucc k =>
    let places := k + 1
    if places < digits.length then
      String.ofList (digits.take (digits.length - places)) ++ "." ++
        String.ofList (digits.drop (digits.length - places))
    else "0." ++ zeros (places - digits.length) ++ String.ofList digits

/-- One digit, a point only if more follow, and the exponent. -/
def scientific (d : ShortDecimal) : String :=
  let digits := Nat.toDigits 10 d.digits
  let exponent := d.exponent + digits.length - 1
  let fraction := if digits.length ≤ 1 then "" else "." ++ String.ofList (digits.drop 1)
  String.ofList (digits.take 1) ++ fraction ++ "e" ++ toString exponent

/-- The text of the finite value of this format, sign and magnitude. -/
def write (n : DecimalNotation) (f : BinaryFormat) (negative : Bool) (magnitude : Nat) : String :=
  let d := f.shortest n.tie magnitude
  let lead := d.exponent + decimalLength d.digits - 1
  let body :=
    if d.digits = 0 ∨ (n.least ≤ lead ∧ lead < n.bound) then positional d else scientific d
  if negative then "-" ++ body else body

end DecimalNotation

end WasmBackend
