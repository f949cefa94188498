import WasmBackend.Json.Number
import WasmBackend.Text.Hex

/-!
# Reading JSON

The grammar of the standard and nothing else: no comments, no trailing commas, no leading zeros, no
raw control characters in strings, and after the value only white space.

The readers for values, array items and object fields call each other on what is left of the input.
They take a bound on the number of calls; every second call consumes a character, so twice the
length of the text is never reached.
-/

namespace WasmBackend.Json

def isSpace (c : Char) : Bool := c = ' ' ∨ c = '\n' ∨ c = '\t' ∨ c = '\r'

def skipSpace (cs : List Char) : List Char := cs.dropWhile isSpace

/-! ## Strings -/

/-- A piece of a string: a character written as itself or by a short escape, or a code unit written
in hexadecimal. -/
inductive StringPiece where
  | char (c : Char)
  | unit (n : Nat)

/-- The pieces up to the closing quote, and what follows it. -/
def stringPieces : List Char → Option (List StringPiece × List Char)
  | [] => none
  | '"' :: rest => some ([], rest)
  | '\\' :: 'u' :: a :: b :: c :: d :: rest => do
    let unit := 4096 * (← Text.hexValue? a) + 256 * (← Text.hexValue? b) +
      16 * (← Text.hexValue? c) + (← Text.hexValue? d)
    let (pieces, rest) ← stringPieces rest
    return (.unit unit :: pieces, rest)
  | '\\' :: e :: rest => do
    let c ← match e with
      | '"' => some '"'
      | '\\' => some '\\'
      | '/' => some '/'
      | 'b' => some '\x08'
      | 'f' => some '\x0c'
      | 'n' => some '\n'
      | 'r' => some '\r'
      | 't' => some '\t'
      | _ => none
    let (pieces, rest) ← stringPieces rest
    return (.char c :: pieces, rest)
  | c :: rest =>
    if c = '\\' ∨ c.toNat < 0x20 then none
    else do
      let (pieces, rest) ← stringPieces rest
      return (.char c :: pieces, rest)

/-- The characters that pieces denote: a high surrogate must be followed by a low one. -/
def denote? : List StringPiece → Option (List Char)
  | [] => some []
  | .char c :: rest => (denote? rest).map (c :: ·)
  | .unit high :: rest =>
    if 0xD800 ≤ high ∧ high < 0xDC00 then
      match rest with
      | .unit low :: rest =>
        if 0xDC00 ≤ low ∧ low < 0xE000 then
          (denote? rest).map (Char.ofNat (0x10000 + 0x400 * (high - 0xD800) + (low - 0xDC00)) :: ·)
        else none
      | _ => none
    else if 0xDC00 ≤ high ∧ high < 0xE000 then none
    else (denote? rest).map (Char.ofNat high :: ·)

/-- The string that pieces denote. -/
def textOf? (pieces : List StringPiece) : Option String := (denote? pieces).map String.ofList

/-! ## Numbers -/

def isDigit (c : Char) : Bool := '0' ≤ c ∧ c ≤ '9'

/-- The digits at the front, as numbers, and what follows them. -/
def digits (cs : List Char) : List Nat × List Char :=
  ((cs.takeWhile isDigit).map fun c => c.toNat - '0'.toNat, cs.dropWhile isDigit)

/-- A fraction, if one starts here. -/
def fraction? : List Char → Option (List Nat × List Char)
  | '.' :: rest =>
    match digits rest with
    | ([], _) => none
    | found => some found
  | cs => some ([], cs)

/-- The sign of an exponent, and what follows it. -/
def exponentSign : List Char → Bool × List Char
  | '+' :: rest => (false, rest)
  | '-' :: rest => (true, rest)
  | rest => (false, rest)

/-- The digits of an exponent with this sign. -/
def exponentDigits? (negative : Bool) (cs : List Char) : Option (Option Int × List Char) :=
  match digits cs with
  | ([], _) => none
  | (ds, rest) =>
    let n : Nat := ds.foldl (fun acc d => 10 * acc + d) 0
    some (some (if negative then -(n : Int) else n), rest)

/-- An exponent, if one starts here. -/
def exponent? (cs : List Char) : Option (Option Int × List Char) :=
  match cs with
  | [] => some (none, cs)
  | e :: rest =>
    if e = 'e' ∨ e = 'E' then exponentDigits? (exponentSign rest).1 (exponentSign rest).2
    else some (none, cs)

/-- At least one digit, and a leading zero stands alone. -/
def wholeOk : List Nat → Bool
  | [] => false
  | 0 :: _ :: _ => false
  | _ => true

/-- A number with this sign, from its first digit on. -/
def unsigned? (negative : Bool) (cs : List Char) : Option (Json × List Char) := do
  let (whole, cs) := digits cs
  guard (wholeOk whole)
  let (fraction, cs) ← fraction? cs
  let (exponent, cs) ← exponent? cs
  return ((⟨negative, whole, fraction, exponent⟩ : NumberLiteral).toJson, cs)

def number? : List Char → Option (Json × List Char)
  | '-' :: rest => unsigned? true rest
  | cs => unsigned? false cs

/-! ## Values -/

mutual

def value? : Nat → List Char → Option (Json × List Char)
  | 0, _ => none
  | bound + 1, cs =>
    match skipSpace cs with
    | 'n' :: 'u' :: 'l' :: 'l' :: rest => some (.null, rest)
    | 't' :: 'r' :: 'u' :: 'e' :: rest => some (.bool true, rest)
    | 'f' :: 'a' :: 'l' :: 's' :: 'e' :: rest => some (.bool false, rest)
    | '"' :: rest => do
      let (pieces, rest) ← stringPieces rest
      return (match textOf? pieces with
        | some s => .str s
        | none => .undefined, rest)
    | '[' :: rest =>
      match skipSpace rest with
      | ']' :: rest => some (.arr [], rest)
      | rest => items? bound [] rest
    | '\x7b' :: rest =>
      match skipSpace rest with
      | '\x7d' :: rest => some (.obj [], rest)
      | rest => fields? bound (some []) rest
    | rest => number? rest

/-- The items of an array from here on; `done` holds the earlier ones, last first. -/
def items? : Nat → List Json → List Char → Option (Json × List Char)
  | 0, _, _ => none
  | bound + 1, done, cs => do
    let (item, rest) ← value? bound cs
    match skipSpace rest with
    | ',' :: rest => items? bound (item :: done) rest
    | ']' :: rest => return (.arr (item :: done).reverse, rest)
    | _ => none

/-- The fields of an object from here on; `done` holds the earlier ones, last first, or nothing
once a name denotes no text. -/
def fields? : Nat → Option (List (String × Json)) → List Char → Option (Json × List Char)
  | 0, _, _ => none
  | bound + 1, done, cs => do
    let '"' :: rest := skipSpace cs | none
    let (pieces, rest) ← stringPieces rest
    let ':' :: rest := skipSpace rest | none
    let (item, rest) ← value? bound rest
    let done := do return (← textOf? pieces, item) :: (← done)
    match skipSpace rest with
    | ',' :: rest => fields? bound done rest
    | '\x7d' :: rest =>
      return (match done with
        | some done => .obj done.reverse
        | none => .undefined, rest)
    | _ => none

end

/-- The value that a text holds, if it holds exactly one. -/
def parse? (text : String) : Option Json := do
  let cs := text.toList
  let (j, rest) ← value? (2 * cs.length + 2) cs
  guard (skipSpace rest).isEmpty
  return j

end WasmBackend.Json
