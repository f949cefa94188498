import WasmBackend.Symbols.ModuleInfo
import WasmBackend.Wat.Writer

/-!
# Frames

What is known while a function is being lowered: its parameters and locals, the loops around the
current statement, and which locals are still *pending*. All locals of a function are declared up
front, but a name means its local only from the `let` that introduces it on; until then it may mean
a parameter, a global or an import of the same name.

Frames form a stack. Whoever pushes one gets it back with `finish`, and everything above it goes
too, so a frame left behind by an interrupted lowering cannot outlive the one below it.
-/

namespace WasmBackend

/-- Where a variable's value is. -/
inductive VarScope where
  | global
  | localVar
  | param
  | memory (address : Nat)
  | importedMemory
  deriving DecidableEq, Repr

structure Variable where
  name : String
  scope : VarScope
  ty : Ty
  deriving DecidableEq, Repr

/-- Is the variable kept in a machine local? -/
def Variable.isLocal (v : Variable) : Bool :=
  match v.scope with
  | .localVar => true
  | .param => true
  | _ => false

/-! ## Loop labels -/

/-- Where `break` and `continue` go, and where the loop starts over. -/
structure LoopLabels where
  exit : Label
  again : Label
  next : Label
  deriving DecidableEq, Repr

/-- Numbers loops, starting over after `2^32` of them. -/
structure LabelSupply where
  issued : UInt32 := 0
  deriving DecidableEq, Repr, Inhabited

namespace LabelSupply

/-- A `while` continues by starting over. -/
def whileLoop (s : LabelSupply) : LoopLabels × LabelSupply :=
  (⟨⟨.exit, s.issued⟩, ⟨.again, s.issued⟩, ⟨.again, s.issued⟩⟩, ⟨s.issued + 1⟩)

/-- A `for` continues with its update. -/
def forLoop (s : LabelSupply) : LoopLabels × LabelSupply :=
  (⟨⟨.exit, s.issued⟩, ⟨.again, s.issued⟩, ⟨.next, s.issued⟩⟩, ⟨s.issued + 1⟩)

end LabelSupply

/-! ## Frames -/

structure Frame where
  name : String
  result : Ty
  params : Table String Variable := {}
  locals : Table String Variable := {}
  /-- The loops around the current statement, innermost first. -/
  loops : List LoopLabels := []
  /-- Locals whose `let` has not been reached. -/
  pending : List String := []
  writer : Writer := .atDepth 2
  deriving DecidableEq, Repr

namespace Frame

/-- Makes all locals pending. -/
def hideLocals (f : Frame) : Frame := { f with pending := f.locals.keys }

/-- The `let` of this local has been reached. -/
def reveal (f : Frame) (name : String) : Frame :=
  { f with pending := f.pending.filter (· != name) }

/-- A local that is not pending. -/
def visibleLocal? (f : Frame) (name : String) : Option Variable :=
  if f.pending.contains name then none else f.locals.get? name

def enterLoop (f : Frame) (labels : LoopLabels) : Frame := { f with loops := labels :: f.loops }

def exitLoop (f : Frame) : Frame := { f with loops := f.loops.tail }

def innermostLoop? (f : Frame) : Option LoopLabels := f.loops.head?

end Frame

/-- Frames, outermost first. -/
structure FrameStack where
  frames : List Frame := []
  deriving DecidableEq, Repr, Inhabited

namespace FrameStack

def depth (s : FrameStack) : Nat := s.frames.length

/-- Pushes a frame; its position comes back with the stack. -/
def push (s : FrameStack) (f : Frame) : Nat × FrameStack := (s.depth, ⟨s.frames ++ [f]⟩)

/-- The innermost frame. -/
def current? (s : FrameStack) : Option Frame := s.frames.getLast?

def get? (s : FrameStack) (position : Nat) : Option Frame := s.frames[position]?

def modify (s : FrameStack) (position : Nat) (f : Frame → Frame) : FrameStack :=
  ⟨s.frames.modify position f⟩

/-- Drops the frame at this position and everything above it. -/
def drop (s : FrameStack) (position : Nat) : FrameStack := ⟨s.frames.take position⟩

/-- Drops the frame at this position, and hands it back. -/
def finish (s : FrameStack) (position : Nat) : Option Frame × FrameStack :=
  (s.get? position, s.drop position)

end FrameStack

end WasmBackend
