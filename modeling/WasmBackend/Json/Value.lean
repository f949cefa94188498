import WasmBackend.Number.Shortest

/-!
# JSON values

Numbers come in two kinds, told apart by how they are written: an integer has neither fraction nor
exponent. Objects keep their fields in the order in which they were written, repeated names
included, because whoever reads a record has to see them.

`undefined` stands for text that is grammatical but denotes no value: a number too large for a
double, a string (or a name in an object) with an unpaired surrogate escape. Nothing can be read
from it, and it does no harm where nobody looks.
-/

namespace WasmBackend

inductive Json where
  | null
  | bool (b : Bool)
  | int (n : Int)
  | float (x : Binary64)
  | str (s : String)
  | arr (items : List Json)
  | obj (fields : List (String × Json))
  | undefined
  deriving Inhabited

namespace Json

/-! ## Reading parts of a value -/

def str? : Json → Option String
  | str s => some s
  | _ => none

def bool? : Json → Option Bool
  | bool b => some b
  | _ => none

def int? : Json → Option Int
  | int n => some n
  | _ => none

/-- An integer that fits a signed word of 64 bits. -/
def int64? : Json → Option Int64
  | int n => if -0x8000000000000000 ≤ n ∧ n < 0x8000000000000000 then some (Int64.ofInt n) else none
  | _ => none

/-- An integer that fits an unsigned word of 32 bits. -/
def nat32? : Json → Option Nat
  | int n => if 0 ≤ n ∧ n < 0x100000000 then some n.toNat else none
  | _ => none

/-- A number of either kind, as a double. -/
def float? : Json → Option Binary64
  | int n => some (Binary64.ofInt n)
  | float x => some x
  | _ => none

/-- A string of exactly one character. -/
def char? : Json → Option Char
  | str s =>
    match s.toList with
    | [c] => some c
    | _ => none
  | _ => none

def list? {α : Type} (read : Json → Option α) : Json → Option (List α)
  | arr items => items.mapM read
  | _ => none

/-- `null` for nothing. -/
def option? {α : Type} (read : Json → Option α) : Json → Option (Option α)
  | null => some none
  | j => (read j).map some

/-- An object's fields in the order of `names`, each with its value if it has one. Other fields are
skipped; one of these may not be repeated. -/
def named? (names : List String) : Json → Option (List (Option Json))
  | obj fields =>
    names.mapM fun name =>
      match fields.filter (fun f => f.1 == name) with
      | [] => some none
      | [f] => some (some f.2)
      | _ => none
  | _ => none

/-- A record's fields in the order of `names`. A record is an object or the array of all its
values. -/
def record? (names : List String) : Json → Option (List (Option Json))
  | arr items => if items.length = names.length then some (items.map some) else none
  | j => j.named? names

/-- A tagged value: the tag, and what it tags. A bare string is a tag that tags nothing. -/
def tagged? : Json → Option (String × Option Json)
  | str tag => some (tag, none)
  | obj [(tag, value)] => some (tag, some value)
  | _ => none

/-- A tag that tags nothing, or only `null`. -/
def bareTag? (j : Json) : Option String :=
  match j.tagged? with
  | some (tag, none) => some tag
  | some (tag, some null) => some tag
  | _ => none

/-- The first field of this name. -/
def get? (j : Json) (name : String) : Option Json :=
  match j with
  | obj fields => (fields.find? (fun f => f.1 == name)).map Prod.snd
  | _ => none

end Json

end WasmBackend
