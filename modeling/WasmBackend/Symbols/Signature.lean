import WasmBackend.Types
import WasmBackend.Diagnostic

/-!
# Function signatures

A signature is known to the linker by its calling convention: one letter for each parameter, an
underscore, one letter for the result. Functions with equal encodings are called alike.
-/

namespace WasmBackend

structure Signature where
  params : List Ty
  result : Ty
  deriving DecidableEq, Repr, Inhabited

namespace Signature

def encodeLanes (params : List Lane) (result : Lane) : String :=
  String.ofList (params.map Lane.letter ++ ['_', result.letter])

/-- The lane of a parameter letter. Nothing can be passed in the void lane. -/
def paramLane? : Char → Option Lane
  | 'i' => some .int
  | 'f' => some .float
  | _ => none

def resultLane? : List Char → Option Lane
  | ['i'] => some .int
  | ['f'] => some .float
  | ['v'] => some .void
  | _ => none

/-- The lanes that an encoded signature spells. -/
def decode (encoded : String) : Compiled (List Lane × Lane) :=
  let cs := encoded.toList
  let lanes? : Option (List Lane × Lane) :=
    match cs.dropWhile (· != '_') with
    | [] => none
    | _ :: result => do
      return (← (cs.takeWhile (· != '_')).mapM paramLane?, ← resultLane? result)
  match lanes? with
  | some lanes => .ok lanes
  | none => .error (.malformedSignature encoded)

/-- The result lane of an encoded signature. -/
def decodeResult (encoded : String) : Compiled Lane := (decode encoded).map Prod.snd

/-- The plainest type of a lane. -/
def typeOfLane : Lane → Ty
  | .float => .f32
  | .void => .void
  | _ => .i32

/-- A signature with this encoding. -/
def ofEncoded (encoded : String) : Compiled Signature := do
  let (params, result) ← decode encoded
  return ⟨params.map typeOfLane, typeOfLane result⟩

def paramLanes (s : Signature) : List Lane := s.params.map Ty.lane

def resultLane (s : Signature) : Lane := s.result.lane

def encoded (s : Signature) : String := encodeLanes s.paramLanes s.resultLane

def arity (s : Signature) : Nat := s.params.length

end Signature

end WasmBackend
