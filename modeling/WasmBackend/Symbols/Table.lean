/-!
# Insertion-ordered tables

A table is a list of entries with pairwise different keys, in the order in which they were added.
`insert` refuses a key that is present; `set` replaces the value of one that is, and adds it
otherwise. Every operation is a direct recursion on the list of entries, which is also the view that
lemmas speak about.
-/

namespace WasmBackend

structure Table (κ α : Type) where
  entries : List (κ × α) := []
  deriving DecidableEq, Repr

namespace Table

variable {κ α β : Type} [DecidableEq κ]

instance : Inhabited (Table κ α) := ⟨{}⟩

def empty : Table κ α := {}

/-- The value of the first entry with this key. -/
def find (key : κ) : List (κ × α) → Option α
  | [] => none
  | (k, a) :: rest => if k = key then some a else find key rest

def get? (t : Table κ α) (key : κ) : Option α := find key t.entries

def contains (t : Table κ α) (key : κ) : Bool := (t.get? key).isSome

/-- Adds an entry at the end, unless the key is taken. -/
def insert? (t : Table κ α) (key : κ) (a : α) : Option (Table κ α) :=
  if t.contains key then none else some ⟨t.entries ++ [(key, a)]⟩

/-- Changes the value of every entry with this key. -/
def update (f : α → α) (key : κ) : List (κ × α) → List (κ × α)
  | [] => []
  | (k, a) :: rest => (if k = key then (k, f a) else (k, a)) :: update f key rest

/-- Applies `f` to the value of a key, if the key is present. -/
def modify (t : Table κ α) (key : κ) (f : α → α) : Table κ α := ⟨update f key t.entries⟩

/-- Gives a key a value, in place if the key is present. -/
def set (t : Table κ α) (key : κ) (a : α) : Table κ α :=
  if t.contains key then t.modify key (fun _ => a) else ⟨t.entries ++ [(key, a)]⟩

def map (f : α → β) (t : Table κ α) : Table κ β := ⟨t.entries.map fun e => (e.1, f e.2)⟩

def keys (t : Table κ α) : List κ := t.entries.map Prod.fst

def values (t : Table κ α) : List α := t.entries.map Prod.snd

def size (t : Table κ α) : Nat := t.entries.length

def isEmpty (t : Table κ α) : Bool := t.entries.isEmpty

end Table

end WasmBackend
