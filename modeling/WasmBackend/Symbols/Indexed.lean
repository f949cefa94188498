import Std.Data.HashMap
import WasmBackend.Symbols.Table

/-!
# Symbol tables with an index

A symbol table lists its entries in the order in which they were added, and has an index beside
them that gives the position of a name. A look-up goes through the index to the entry. That there is
an entry at a position of the index is for the operations to see to: a position without one is
reported (`OutOfRange`).
-/

namespace WasmBackend

/-- The index gives a position where there is no entry. -/
structure OutOfRange where
  position : Nat
  deriving DecidableEq, Repr

structure SymbolTable (α : Type) where
  entries : Array (String × α) := #[]
  index : Std.HashMap String Nat := {}

namespace SymbolTable

variable {α : Type}

def contains (t : SymbolTable α) (name : String) : Bool := t.index.contains name

/-- Adds an entry at the end, or gives back the value if the name is taken. -/
def insert (t : SymbolTable α) (name : String) (a : α) : Except α Unit × SymbolTable α :=
  if t.contains name then (.error a, t)
  else (.ok (), ⟨t.entries.push (name, a), t.index.insert name t.entries.size⟩)

/-- Changes the value of a name. The answer is what it was. -/
def modify (t : SymbolTable α) (name : String) (f : α → α) :
    Except OutOfRange (Option α × SymbolTable α) :=
  t.index[name]?.elim (.ok (none, t)) fun i => t.entries[i]?.elim (.error ⟨i⟩) fun e =>
    .ok (some e.2, { t with entries := t.entries.modify i fun e => (e.1, f e.2) })

def get (t : SymbolTable α) (name : String) : Except OutOfRange (Option α) :=
  Prod.fst <$> t.modify name id

/-- Changes every value. -/
def modifyAll (t : SymbolTable α) (f : String → α → α) : SymbolTable α :=
  { t with entries := t.entries.map fun e => (e.1, f e.1 e.2) }

def names (t : SymbolTable α) : List String := t.entries.toList.map Prod.fst

def size (t : SymbolTable α) : Nat := t.entries.size

def isEmpty (t : SymbolTable α) : Bool := t.entries.isEmpty

end SymbolTable

end WasmBackend
