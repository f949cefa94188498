import WasmBackend.Proofs.Table
import WasmBackend.Symbols.Indexed

/-!
# Symbol tables are association lists

To its users a symbol table is a list of entries that is searched by name: each operation answers as
it does on the list and leaves the entries that the list then has (`symbolTable_refines_list`). This
rests on what the index says. It gives to each name the position of its entry and knows no other
names (`SymbolTable.Indexed`), hence no name has two entries and no look-up is out of range. What
the index is good for, speed, is left out.
-/

namespace WasmBackend

/-! ## Operations, on either kind of table -/

/-- What can be asked of a table. -/
inductive TableOp (α : Type) where
  | insert (name : String) (a : α)
  | get (name : String)
  | modify (name : String) (f : α → α)
  | contains (name : String)
  | modifyAll (f : String → α → α)
  | names
  | entries
  | size

inductive TableAnswer (α : Type) where
  | inserted (result : Except α Unit)
  | value (found : Option α)
  | present (yes : Bool)
  | names (l : List String)
  | entries (l : List (String × α))
  | size (n : Nat)

variable {α : Type}

/-- The names that an operation asks to add. -/
def TableOp.added : TableOp α → List String
  | insert name _ => [name]
  | _ => []

/-- One operation on an association list. To change all values, one goes through the entries. -/
def Table.serve (t : Table String α) : TableOp α → TableAnswer α × Table String α
  | .insert name a =>
    (t.insert? name a).elim (.inserted (.error a), t) fun t' => (.inserted (.ok ()), t')
  | .get name => (.value (t.get? name), t)
  | .modify name f => (.value (t.get? name), t.modify name f)
  | .contains name => (.present (t.contains name), t)
  | .modifyAll f => (.entries t.entries, ⟨t.entries.map fun e => (e.1, f e.1 e.2)⟩)
  | .names => (.names t.keys, t)
  | .entries => (.entries t.entries, t)
  | .size => (.size t.size, t)

/-- The answers to operations, in order, and the table after them. -/
def Table.run (t : Table String α) : List (TableOp α) → List (TableAnswer α) × Table String α
  | [] => ([], t)
  | op :: rest => ((t.serve op).1 :: ((t.serve op).2.run rest).1, ((t.serve op).2.run rest).2)

theorem Table.update_eq_map (f : α → α) (name : String) (l : List (String × α)) :
    update f name l = l.map fun e => if e.1 = name then (e.1, f e.2) else e := by
  induction l with
  | nil => rfl
  | cons e rest ih => rw [update, ih, List.map_cons]

theorem Table.keys_modify (t : Table String α) (name : String) (f : α → α) :
    (t.modify name f).keys = t.keys := by
  unfold keys modify
  rw [update_eq_map, List.map_map]
  apply List.map_congr_left
  intro e _
  dsimp only [Function.comp]
  split <;> rfl

namespace SymbolTable

/-- The answer to an operation, and the table to go on with. -/
def serve (t : SymbolTable α) : TableOp α → Except OutOfRange (TableAnswer α × SymbolTable α)
  | .insert name a => .ok (.inserted (t.insert name a).1, (t.insert name a).2)
  | .get name => do return (.value (← t.get name), t)
  | .modify name f => do
    let modified ← t.modify name f
    return (.value modified.1, modified.2)
  | .contains name => .ok (.present (t.contains name), t)
  | .modifyAll f => .ok (.entries t.entries.toList, t.modifyAll f)
  | .names => .ok (.names t.names, t)
  | .entries => .ok (.entries t.entries.toList, t)
  | .size => .ok (.size t.size, t)

/-- Operations one after the other. A broken index is an error, which no history leads to. -/
def run (t : SymbolTable α) :
    List (TableOp α) → Except OutOfRange (List (TableAnswer α) × SymbolTable α)
  | [] => .ok ([], t)
  | op :: rest => do
    let served ← t.serve op
    let last ← served.2.run rest
    return (served.1 :: last.1, last.2)

/-! ## What the index says -/

/-- The table as a list of entries. -/
def listing (t : SymbolTable α) : Table String α := ⟨t.entries.toList⟩

/-- The index has the names of the entries, each with its position. -/
def Indexed (t : SymbolTable α) : Prop :=
  ∀ (name : String) (i : Nat), t.index[name]? = some i ↔ t.names[i]? = some name

namespace Indexed

variable {t t' : SymbolTable α}

theorem keep (h : t.Indexed) (hindex : t'.index = t.index) (hnames : t'.names = t.names) :
    t'.Indexed := by
  intro name i
  rw [hindex, hnames]
  exact h name i

theorem nodup (h : t.Indexed) : t.names.Nodup := by
  rw [List.Nodup, List.pairwise_iff_getElem]
  intro i j hi hj hij heq
  have hfirst := (h _ i).mpr (List.getElem?_eq_getElem hi)
  have hsecond := (h _ j).mpr (List.getElem?_eq_getElem hj)
  rw [heq, hsecond] at hfirst
  cases hfirst
  exact Nat.lt_irrefl _ hij

theorem contains_eq (h : t.Indexed) (name : String) :
    t.contains name = t.listing.contains name := by
  rw [contains, Std.HashMap.contains_eq_isSome_getElem?, Bool.eq_iff_iff, Table.contains_iff,
    Option.isSome_iff_exists, List.mem_iff_getElem?]
  exact exists_congr (h name)

/-- A new name gets the position after the last. -/
theorem push (h : t.Indexed) {name : String} (hfresh : name ∉ t.names) (a : α) :
    Indexed ⟨t.entries.push (name, a), t.index.insert name t.entries.size⟩ := by
  intro name' i
  have hfree : t.names[i]? ≠ some name := fun hi => hfresh (List.mem_of_getElem? hi)
  have hend : t.names[t.entries.size]? = none := by simp [names]
  have hat : (names ⟨t.entries.push (name, a), t.index.insert name t.entries.size⟩)[i]? =
      if i = t.entries.size then some name else t.names[i]? := by
    rw [names, names, List.getElem?_map, Array.getElem?_toList, Array.getElem?_push]
    split <;> simp
  rw [hat, Std.HashMap.getElem?_insert]
  by_cases heq : name = name'
  · subst heq
    rw [if_pos (beq_self_eq_true name)]
    by_cases hi : i = t.entries.size
    · simp [hi]
    · simp [hi, hfree, Ne.symm hi]
  · rw [beq_false_of_ne heq, if_neg Bool.false_ne_true, h name' i]
    by_cases hi : i = t.entries.size
    · simp [hi, hend, heq]
    · rw [if_neg hi]

/-- Changing the entry at the position of a name changes the value of that name. -/
theorem modify (h : t.Indexed) (name : String) (f : α → α) : ∃ t', t'.index = t.index ∧
    t'.listing = t.listing.modify name f ∧ t.modify name f = .ok (t.listing.get? name, t') := by
  have hat : ∀ (j : Nat) e, t.entries[j]? = some e → (e.1 = name ↔ t.index[name]? = some j) := by
    intro j e hj
    simp [h name j, names, hj]
  have hupdated : t.listing.modify name f =
      ⟨t.entries.toList.map fun e => if e.1 = name then (e.1, f e.2) else e⟩ :=
    congrArg Table.mk (Table.update_eq_map f name _)
  rw [hupdated]
  cases hindex : t.index[name]? with
  | none =>
    have hnone : t.listing.get? name = none := by
      rw [← Table.contains_eq_false, ← h.contains_eq, contains,
        Std.HashMap.contains_eq_isSome_getElem?, hindex, Option.isSome_none]
    refine ⟨t, rfl, congrArg Table.mk (List.ext_getElem? fun j => ?_), ?_⟩
    · rw [List.getElem?_map, Array.getElem?_toList]
      cases hj : t.entries[j]? with
      | none => rfl
      | some e => simp [hat j e hj, hindex]
    · rw [SymbolTable.modify, hindex, hnone, Option.elim_none]
  | some i =>
    obtain ⟨e, he, hname⟩ : ∃ e, t.entries[i]? = some e ∧ e.1 = name := by
      simpa [names] using (h name i).mp hindex
    have hsome : t.listing.get? name = some e.2 := by
      rw [← hname]
      exact Table.find_of_mem h.nodup (Array.mem_toList_iff.mpr (Array.mem_of_getElem? he))
    refine ⟨{ t with entries := t.entries.modify i fun e => (e.1, f e.2) }, rfl,
      congrArg Table.mk (List.ext_getElem? fun j => ?_), ?_⟩
    · rw [List.getElem?_map, Array.getElem?_toList, Array.getElem?_toList, Array.getElem?_modify]
      cases hj : t.entries[j]? with
      | none => split <;> rfl
      | some e' =>
        have hiff : e'.1 = name ↔ i = j := by rw [hat j e' hj, hindex, Option.some_inj]
        by_cases hij : i = j
        · rw [if_pos hij, Option.map_some, Option.map_some, if_pos (hiff.mpr hij)]
        · rw [if_neg hij, Option.map_some, if_neg (mt hiff.mp hij)]
    · rw [SymbolTable.modify, hindex, hsome, Option.elim_some, he, Option.elim_some]

end Indexed

/-! ## Refinement -/

/-- The operation answers as on the listing, and the index stays right. -/
def Refines (t : SymbolTable α) (op : TableOp α) : Prop :=
  ∃ answer t', t.serve op = .ok (answer, t') ∧ t.listing.serve op = (answer, t'.listing) ∧
    t'.Indexed ∧ t'.names = t.names ++ op.added.removeAll t.names

variable {t : SymbolTable α}

theorem Indexed.insert_taken (h : t.Indexed) {name : String} (hmem : name ∈ t.names) (a : α) :
    t.insert name a = (.error a, t) := by
  rw [insert, h.contains_eq, Table.contains_iff.mpr hmem, if_pos rfl]

theorem Indexed.insert (h : t.Indexed) (name : String) (a : α) : t.Refines (.insert name a) := by
  by_cases hmem : name ∈ t.names
  · refine ⟨.inserted (.error a), t, ?_, ?_, h, ?_⟩
    · rw [serve, h.insert_taken hmem]
    · rw [Table.serve, Table.insert?_eq_none.mpr hmem, Option.elim_none]
    · simp [TableOp.added, List.removeAll, hmem]
  · have hfree : t.contains name = false :=
      (h.contains_eq name).trans (Bool.eq_false_iff.mpr (mt Table.contains_iff.mp hmem))
    refine ⟨.inserted (.ok ()), _, ?_, ?_, h.push hmem a, ?_⟩
    · rw [serve, SymbolTable.insert, hfree]
      rfl
    · rw [Table.serve, Table.insert?_eq_some.mpr ⟨hmem, rfl⟩, Option.elim_some]
      simp [listing, Table.extend]
    · have hadded : [name].removeAll t.names = [name] := by simp [List.removeAll, hmem]
      rw [TableOp.added, hadded]
      simp [names]

theorem Indexed.refines (h : t.Indexed) (op : TableOp α) : t.Refines op := by
  cases op with
  | insert name a => exact h.insert name a
  | get name =>
    obtain ⟨t', -, -, hget⟩ := h.modify name id
    refine ⟨_, t, ?_, rfl, h, (List.append_nil _).symm⟩
    rw [serve, get, hget]
    rfl
  | modify name f =>
    obtain ⟨t', hindex, hlisting, hmodify⟩ := h.modify name f
    have hnames : t'.names = t.names := by
      show t'.listing.keys = t.listing.keys
      rw [hlisting, Table.keys_modify]
    refine ⟨.value (t.listing.get? name), t', ?_, ?_, h.keep hindex hnames, ?_⟩
    · rw [serve, hmodify]
      rfl
    · rw [Table.serve, hlisting]
    · rw [hnames]
      exact (List.append_nil _).symm
  | modifyAll f =>
    have hnames : (t.modifyAll f).names = t.names := by simp [names, modifyAll]
    refine ⟨_, t.modifyAll f, rfl, ?_, h.keep rfl hnames, ?_⟩
    · simp [Table.serve, listing, modifyAll]
    · rw [hnames]
      exact (List.append_nil _).symm
  | contains name =>
    refine ⟨_, t, rfl, ?_, h, (List.append_nil _).symm⟩
    rw [Table.serve, h.contains_eq]
  | _ => exact ⟨_, t, rfl, rfl, h, (List.append_nil _).symm⟩

/-- Along a run, the names are those that were asked to be added so far, each where it was first. -/
theorem Indexed.run (h : t.Indexed) {history : List String} (hnames : t.names = history.eraseDups)
    (ops : List (TableOp α)) : ∃ answers t', t.run ops = .ok (answers, t') ∧
      t.listing.run ops = (answers, t'.listing) ∧ t'.Indexed ∧
      t'.names = (history ++ ops.flatMap TableOp.added).eraseDups := by
  induction ops generalizing t history with
  | nil => exact ⟨[], t, rfl, rfl, h, by simpa using hnames⟩
  | cons op rest ih =>
    obtain ⟨answer, t₁, hserve, hlisting, hindexed, hnames₁⟩ := h.refines op
    have hhistory : t₁.names = (history ++ op.added).eraseDups := by
      rw [hnames₁, hnames, List.eraseDups_append]
      cases op with
      | insert name a =>
        by_cases hmem : name ∈ history <;>
          simp [TableOp.added, List.removeAll, List.eraseDups_cons, hmem]
      | _ => rfl
    obtain ⟨answers, t₂, hrun, hlast, hindexed₂, hnames₂⟩ := ih hindexed hhistory
    refine ⟨answer :: answers, t₂, ?_, ?_, hindexed₂, ?_⟩
    · simp only [SymbolTable.run, hserve, hrun, bind, Except.bind]
      rfl
    · rw [Table.run, hlisting, hlast]
    · rw [hnames₂, List.flatMap_cons, List.append_assoc]

end SymbolTable

/-- A symbol table answers every sequence of operations as an association list does. Its index says
exactly where the names stand, which come in the order in which they were first added. -/
theorem symbolTable_refines_list (ops : List (TableOp α)) : ∃ answers t,
    SymbolTable.run {} ops = .ok (answers, t) ∧ Table.run {} ops = (answers, t.listing) ∧
    (∀ (name : String) (i : Nat), t.index[name]? = some i ↔ t.names[i]? = some name) ∧
    t.names.Nodup ∧ t.names = (ops.flatMap TableOp.added).eraseDups ∧
    ∀ name ∈ t.names, ∀ a, t.insert name a = (.error a, t) := by
  have hempty : SymbolTable.Indexed ({} : SymbolTable α) := by
    intro name i
    simp [SymbolTable.names]
  have hnone : SymbolTable.names ({} : SymbolTable α) = List.eraseDups [] := rfl
  obtain ⟨answers, t, hrun, hlist, hindexed, hnames⟩ := hempty.run hnone ops
  exact ⟨answers, t, hrun, hlist, hindexed, hindexed.nodup, hnames,
    fun _ hmem => hindexed.insert_taken hmem⟩

end WasmBackend
