import WasmBackend.Types
import WasmBackend.Text.Blank

/-!
# Reading type annotations

An annotation is a row of stars, a name, and a row of bracket pairs, with white space anywhere
around these. Stars are taken off first, so they end up outermost: a star before brackets makes a
pointer to an array.
-/

namespace WasmBackend

inductive TypeError where
  | empty
  | invalid (source : String)
  deriving DecidableEq, Repr

def TypeError.message : TypeError → String
  | .empty => "empty type annotation"
  | .invalid source => "invalid type annotation `" ++ source ++ "`"

namespace Ty

def isNameStart (c : Char) : Bool := c.isAlpha || c == '_'
def isNameChar (c : Char) : Bool := c.isAlphanum || c == '_'

/-- An identifier: letters, digits and underscores, with no digit in front. -/
def isName : List Char → Bool
  | [] => false
  | c :: rest => isNameStart c && rest.all isNameChar

/-- The type that a bare name stands for. -/
def ofName? (cs : List Char) : Option Ty :=
  let name := String.ofList cs
  if name = "void" then some void
  else
    match Scalar.ofName? name with
    | some s => some (scalar s)
    | none => if isName cs then some (named name) else none

/-- What stands before a closing pair of brackets. -/
def beforeBrackets? (cs : List Char) : Option (List Char) :=
  match cs.reverse with
  | ']' :: '[' :: rest => some rest.reverse
  | _ => none

theorem length_beforeBrackets {cs rest : List Char} (h : beforeBrackets? cs = some rest) :
    rest.length + 2 = cs.length := by
  unfold beforeBrackets? at h
  split at h
  · rename_i tail heq
    have hlen : cs.reverse.length = tail.length + 2 := by rw [heq]; simp
    cases h
    simp at hlen ⊢
    omega
  · cases h

/-- The type that the characters spell. -/
def ofChars? (cs : List Char) : Option Ty :=
  match _h : Text.trim cs with
  | [] => none
  | '*' :: rest => (ofChars? rest).map pointer
  | text =>
    match _hb : beforeBrackets? text with
    | some rest => (ofChars? rest).map array
    | none => ofName? text
termination_by cs.length
decreasing_by
  · have := Text.length_trim_le cs
    rw [_h] at this
    simp at this
    omega
  · have h1 := Text.length_trim_le cs
    have h2 := length_beforeBrackets _hb
    rw [_h] at h1
    omega

/-- The type that a source text spells. An invalid text is reported whole. -/
def parse (source : String) : Except TypeError Ty :=
  if (Text.trim source.toList).isEmpty then .error .empty
  else
    match ofChars? source.toList with
    | some t => .ok t
    | none => .error (.invalid source)

end Ty

end WasmBackend
