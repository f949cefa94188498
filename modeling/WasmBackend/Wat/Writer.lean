import WasmBackend.Text.Blank
import WasmBackend.Wat.Code

/-!
# Writing indented text

Lines are indented by two spaces for each level. Code keeps the level itself: a line that opens a
construct indents what follows, one that closes it goes back first. What a line does is told by its
first word, so any text can be written as code.
-/

namespace WasmBackend

structure Writer where
  depth : Nat := 0
  output : String := ""
  deriving DecidableEq, Repr, Inhabited

namespace Writer

/-- An empty writer at this level. -/
def atDepth (depth : Nat) : Writer := { depth }

def indent (w : Writer) : Writer := { w with depth := w.depth + 1 }

/-- One level back; the outermost level has none before it. -/
def dedent (w : Writer) : Writer := { w with depth := w.depth - 1 }

/-- Appends text as it is. -/
def raw (w : Writer) (text : String) : Writer := { w with output := w.output ++ text }

/-- Appends an indented line. -/
def line (w : Writer) (text : String) : Writer :=
  { w with output := w.output ++ String.ofList (List.replicate (2 * w.depth) ' ') ++ text ++ "\n" }

/-- The first word of a line of code. -/
def opcode (text : String) : String := String.ofList (Text.firstWord text.toList)

def closes (opcode : String) : Bool := opcode = "end" ∨ opcode = "else"

def opens (opcode : String) : Bool :=
  opcode = "block" ∨ opcode = "loop" ∨ opcode = "if" ∨ opcode = "else"

/-- Appends a line of code. -/
def code (w : Writer) (text : String) : Writer :=
  let word := opcode text
  let w := if closes word then w.dedent else w
  let w := w.line text
  if opens word then w.indent else w

/-- Appends lines of code. -/
def codes (w : Writer) (texts : List String) : Writer := texts.foldl code w

/-- Appends printed code. -/
def lines (w : Writer) (ls : List Line) : Writer := w.codes (ls.map Line.text)

def isEmpty (w : Writer) : Bool := w.output.isEmpty

/-- The text so far, and the writer without it. -/
def take (w : Writer) : String × Writer := (w.output, { w with output := "" })

end Writer

end WasmBackend
