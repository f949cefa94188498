import WasmBackend.Json.Value
import WasmBackend.Text.Hex

/-!
# Writing JSON

Compact text. A double gets the fewest digits that read back, with a fraction or an exponent so that
it stays a double; infinities and NaN have no spelling and become `null`.
-/

namespace WasmBackend.Json

/-- Doubles are positional from `10^-5` up to `10^16`, and a tie goes to the even digit. -/
def doubles : DecimalNotation := ⟨-5, 16, .even⟩

def floatText (x : Binary64) : String :=
  if x.isFinite then doubles.write .double x.negative x.magnitude else "null"

/-- The escaped form of a character inside a string. -/
def escapeChar (c : Char) : List Char :=
  if c = '"' then ['\\', '"']
  else if c = '\\' then ['\\', '\\']
  else if c = '\n' then ['\\', 'n']
  else if c = '\r' then ['\\', 'r']
  else if c = '\t' then ['\\', 't']
  else if c.toNat < 0x20 then
    '\\' :: 'u' :: '0' :: '0' :: [Text.hexDigit (c.toNat / 16), Text.hexDigit (c.toNat % 16)]
  else [c]

def quote (s : String) : String := String.ofList ('"' :: s.toList.flatMap escapeChar ++ ['"'])

/-! Each function appends to the text written so far, so that a long value costs its own length. -/

mutual

def write (out : String) : Json → String
  | null => out ++ "null"
  | undefined => out ++ "null"
  | bool true => out ++ "true"
  | bool false => out ++ "false"
  | int n => out ++ toString n
  | float x => out ++ floatText x
  | str s => out ++ quote s
  | arr items => writeItems (out.push '[') items
  | obj fields => writeFields (out.push '\x7b') fields

def writeItems (out : String) : List Json → String
  | [] => out.push ']'
  | [j] => (write out j).push ']'
  | j :: rest => writeItems ((write out j).push ',') rest

def writeFields (out : String) : List (String × Json) → String
  | [] => out.push '\x7d'
  | [(name, j)] => (write (out ++ quote name ++ ":") j).push '\x7d'
  | (name, j) :: rest => writeFields ((write (out ++ quote name ++ ":") j).push ',') rest

end

def render (j : Json) : String := write "" j

end WasmBackend.Json
