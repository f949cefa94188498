import WasmBackend.Proofs.Lists
import WasmBackend.Proofs.Success
import WasmBackend.Proofs.Table
import WasmBackend.Symbols.Layout

/-!
# Layouts

A layout lists the fields of its declaration, each where the one before it ends. Both checks are
made field by field, and together they say something about the whole list: names are different, and
the sum of the sizes is an address (`StructLayout.ofFields_eq_ok`). There is no padding, so nothing
is said about alignment.
-/

namespace WasmBackend

open Compiled

/-- The bytes that fields take up together. -/
def Binding.totalSize (fields : List Binding) : Nat :=
  fields.foldr (fun field total => field.ty.size + total) 0

@[simp] theorem Binding.totalSize_nil : totalSize [] = 0 := rfl

@[simp] theorem Binding.totalSize_cons (field : Binding) (rest : List Binding) :
    totalSize (field :: rest) = field.ty.size + totalSize rest := rfl

namespace StructLayout

open Binding (totalSize)

/-- Members for fields, one behind the other from this offset on. -/
def tile (start : Nat) : List Binding → List (String × MemberLayout)
  | [] => []
  | field :: rest =>
    (field.name, ⟨start, field.ty.size, field.ty⟩) :: tile (start + field.ty.size) rest

theorem length_tile (start : Nat) (fields : List Binding) :
    (tile start fields).length = fields.length := by
  induction fields generalizing start with
  | nil => rfl
  | cons field rest ih => simp [tile, ih]

theorem getElem?_tile (start : Nat) (fields : List Binding) (i : Nat) :
    (tile start fields)[i]? = fields[i]?.map fun field =>
      (field.name, ⟨start + totalSize (fields.take i), field.ty.size, field.ty⟩) := by
  induction fields generalizing start i with
  | nil => rfl
  | cons field rest ih =>
    cases i with
    | zero => rfl
    | succ i =>
      simp only [tile, List.getElem?_cons_succ, ih, List.take_succ_cons, Binding.totalSize_cons,
        Nat.add_assoc]

theorem keys_tile (start : Nat) (fields : List Binding) :
    (tile start fields).map Prod.fst = fields.map Binding.name := by
  induction fields generalizing start with
  | nil => rfl
  | cons field rest ih => simp [tile, ih]

theorem exists_tile {start k : Nat} {fields : List Binding} (hstart : start ≤ k)
    (hk : k < start + totalSize fields) :
    ∃ e ∈ tile start fields, e.2.offset ≤ k ∧ k < e.2.offset + e.2.size := by
  induction fields generalizing start with
  | nil =>
    rw [Binding.totalSize_nil] at hk
    omega
  | cons field rest ih =>
    rw [Binding.totalSize_cons] at hk
    by_cases hfirst : k < start + field.ty.size
    · exact ⟨_, List.mem_cons_self, hstart, hfirst⟩
    · obtain ⟨e, he, hinside⟩ := ih (Nat.le_of_not_lt hfirst) (by omega)
      exact ⟨e, List.mem_cons_of_mem _ he, hinside⟩

theorem addMember_eq_ok {l l' : StructLayout} {field : Binding} :
    l.addMember field = .ok l' ↔
      field.name ∉ l.members.keys ∧ l.size + field.ty.size < addressSpace ∧
        l' = { l with
          size := l.size + field.ty.size
          members := l.members.extend [(field.name, ⟨l.size, field.ty.size, field.ty⟩)] } := by
  unfold addMember
  dsimp only
  cases hinsert : l.members.insert? field.name ⟨l.size, field.ty.size, field.ty⟩ with
  | none => simp [Table.insert?_eq_none.mp hinsert]
  | some members =>
    obtain ⟨hfresh, rfl⟩ := Table.insert?_eq_some.mp hinsert
    by_cases hroom : addressSpace ≤ l.size + field.ty.size
    · simp [hroom, Nat.not_lt.mpr hroom]
    · simp [hroom, hfresh, Nat.lt_of_not_le hroom, eq_comm (a := l')]

/-- The checks that are made for each field, as one check for all of them. -/
theorem addMembers_eq_ok {l l' : StructLayout} {fields : List Binding}
    (hsize : l.size < addressSpace) (hkeys : l.members.keys.Nodup) :
    fields.foldlM addMember l = .ok l' ↔
      (l.members.keys ++ fields.map Binding.name).Nodup ∧
        l.size + totalSize fields < addressSpace ∧
        l' = { l with
          size := l.size + totalSize fields
          members := l.members.extend (tile l.size fields) } := by
  induction fields generalizing l with
  | nil =>
    show pure l = _ ↔ _
    simp [pure_ok, totalSize, tile, hsize, hkeys, eq_comm (a := l')]
  | cons field rest ih =>
    rw [List.foldlM_cons, bind_ok, Binding.totalSize_cons, ← Nat.add_assoc, tile,
      List.map_cons]
    constructor
    · rintro ⟨next, hnext, hrest⟩
      obtain ⟨hfresh, hroom, rfl⟩ := addMember_eq_ok.mp hnext
      obtain ⟨hnodup, htotal, rfl⟩ :=
        (ih hroom (Table.keys_extend_nodup _ hkeys hfresh)).mp hrest
      refine ⟨?_, htotal, by simp⟩
      simpa using hnodup
    · rintro ⟨hnodup, htotal, rfl⟩
      have hfresh : field.name ∉ l.members.keys := fun hmem =>
        (List.nodup_append.mp hnodup).2.2 _ hmem _ List.mem_cons_self rfl
      have hroom : l.size + field.ty.size < addressSpace := by omega
      refine ⟨_, addMember_eq_ok.mpr ⟨hfresh, hroom, rfl⟩, ?_⟩
      refine (ih hroom (Table.keys_extend_nodup _ hkeys hfresh)).mpr ⟨?_, htotal, by simp⟩
      simpa using hnodup

variable {name : String} {fields : List Binding} {exported : Bool} {layout : StructLayout}

/-- A declaration has a layout if names are different and the sizes add up to an address. -/
theorem ofFields_eq_ok : ofFields name fields exported = .ok layout ↔
    (fields.map Binding.name).Nodup ∧ totalSize fields < addressSpace ∧
      layout = ⟨name, totalSize fields, exported, ⟨tile 0 fields⟩⟩ := by
  have hiff : fields.foldlM addMember ⟨name, 0, exported, {}⟩ = .ok layout ↔ _ :=
    addMembers_eq_ok (show 0 < addressSpace by decide) .nil
  rw [ofFields, hiff]
  simp [Table.keys, Table.extend]

theorem size_of_mem_tile {start : Nat} {e : String × MemberLayout} (he : e ∈ tile start fields) :
    e.2.size = e.2.ty.size := by
  obtain ⟨i, hi⟩ := List.mem_iff_getElem?.mp he
  rw [getElem?_tile] at hi
  obtain ⟨field, -, rfl⟩ := Option.map_eq_some_iff.mp hi
  rfl

/-! ## What a layout keeps of its declaration -/

theorem ofFields_keys (h : ofFields name fields exported = .ok layout) :
    layout.members.keys = fields.map Binding.name := by
  obtain ⟨-, -, rfl⟩ := ofFields_eq_ok.mp h
  exact keys_tile 0 fields

theorem ofFields_exported (h : ofFields name fields exported = .ok layout) :
    layout.exported = exported := by
  obtain ⟨-, -, rfl⟩ := ofFields_eq_ok.mp h
  rfl

theorem ofFields_error {e : CompileError} (h : ofFields name fields exported = .error e) :
    (∃ field, List.Duplicate field (fields.map Binding.name) ∧
      e = .duplicateDefinition .member (name ++ "." ++ field)) ∨
    ∃ limit, e = .addressOverflow limit := by
  obtain ⟨done, field, rest, layout, rfl, hdone, hstep⟩ := foldlM_error h
  have hkeys := ofFields_keys hdone
  obtain ⟨-, -, rfl⟩ := ofFields_eq_ok.mp hdone
  unfold addMember at hstep
  dsimp only at hstep
  split at hstep
  · next hinsert =>
    cases hstep
    have hmem := Table.insert?_eq_none.mp hinsert
    rw [hkeys] at hmem
    refine .inl ⟨field.name, ?_, rfl⟩
    rw [List.map_append, List.map_cons]
    exact duplicate_of_mem hmem
  · split at hstep
    · cases hstep
      exact .inr ⟨_, rfl⟩
    · cases hstep

/-- Members lie one behind the other and have different names. -/
def Spread (layout : StructLayout) : Prop :=
  layout.members.entries.Pairwise fun a b =>
    a.1 ≠ b.1 ∧ a.2.offset + a.2.ty.size ≤ b.2.offset

/-- Members lie apart, and they end inside the struct. -/
structure Fits (layout : StructLayout) : Prop where
  spread : layout.Spread
  within : ∀ e ∈ layout.members.entries, e.2.offset + e.2.ty.size ≤ layout.size

/-- The layout of a struct declaration fits: a member is added behind all others, under a name that
none of them has, and the layout grows by its size. -/
theorem ofFields_fits (h : ofFields name fields exported = .ok layout) : layout.Fits := by
  have hempty : Fits ⟨name, 0, exported, {}⟩ := ⟨List.Pairwise.nil, nofun⟩
  refine foldlM_invariant (P := Fits) ?_ hempty h
  rintro l field l' ⟨hspread, hwithin⟩ hadd
  obtain ⟨hfresh, -, rfl⟩ := addMember_eq_ok.mp hadd
  refine ⟨?_, ?_⟩
  · simp only [Spread, Table.entries_extend, List.pairwise_append, List.forall_mem_singleton]
    refine ⟨hspread, List.pairwise_singleton _ _, fun e he => ⟨?_, hwithin e he⟩⟩
    intro heq
    exact hfresh (heq ▸ List.mem_map_of_mem he)
  · simp only [Table.entries_extend, List.forall_mem_append, List.forall_mem_singleton]
    exact ⟨fun e he => Nat.le_add_right_of_le (hwithin e he), Nat.le_refl _⟩

end StructLayout

end WasmBackend
