import WasmBackend.Symbols.Table

/-!
# Looking things up in tables

Each operation on tables, as seen through `get?` and through the keys. Tables that were built by
insertion have pairwise different keys, and then an entry is what `get?` finds under its key.
-/

namespace WasmBackend.Table

variable {κ α β : Type} [DecidableEq κ] {t : Table κ α} {key : κ} {a : α}

theorem find_append (key : κ) (a b : List (κ × α)) :
    find key (a ++ b) = (find key a).or (find key b) := by
  induction a with
  | nil => rfl
  | cons e rest ih =>
    simp only [List.cons_append, find]
    split
    · rfl
    · exact ih

theorem find_map (key : κ) (f : α → β) (l : List (κ × α)) :
    find key (l.map fun e => (e.1, f e.2)) = (find key l).map f := by
  induction l with
  | nil => rfl
  | cons e rest ih =>
    simp only [List.map_cons, find]
    split
    · rfl
    · exact ih

theorem contains_eq_false : t.contains key = false ↔ t.get? key = none := by
  simp [contains]

/-- A key that was free has the new value, and nothing else changes. -/
theorem get?_insert? {t' : Table κ α} (h : t.insert? key a = some t') (key' : κ) :
    t'.get? key' = if key = key' then some a else t.get? key' := by
  unfold insert? at h
  split at h
  · cases h
  · next hfree =>
    cases h
    have hnone : t.get? key = none := contains_eq_false.mp (by simpa using hfree)
    rw [get?, find_append, ← get?]
    by_cases hkey : key = key'
    · subst hkey
      rw [hnone]
      simp [find]
    · simp [find, hkey]

theorem find_update (f : α → α) (key key' : κ) (l : List (κ × α)) :
    find key' (update f key l) = if key = key' then (find key l).map f else find key' l := by
  induction l with
  | nil => simp [update, find]
  | cons e rest ih =>
    by_cases hkey : e.1 = key
    · by_cases hkey' : key = key' <;> simp [update, find, hkey, hkey', ih]
    · by_cases hkey' : key = key'
      · subst hkey'
        simp [update, find, hkey, ih]
      · simp [update, find, hkey, hkey', ih]

/-- A key that was set has the new value, and nothing else changes. -/
theorem get?_set (t : Table κ α) (key : κ) (a : α) (key' : κ) :
    (t.set key a).get? key' = if key = key' then some a else t.get? key' := by
  cases hget : t.get? key with
  | none =>
    have hset : t.insert? key a = some (t.set key a) := by
      simp [insert?, set, contains_eq_false.mpr hget]
    exact get?_insert? hset key'
  | some old =>
    have hset : t.set key a = t.modify key fun _ => a := by simp [set, contains, hget]
    rw [hset]
    show find key' (update (fun _ => a) key t.entries) = _
    rw [find_update, show find key t.entries = some old from hget]
    rfl

theorem get?_map (t : Table κ α) (f : α → β) (key : κ) : (t.map f).get? key = (t.get? key).map f :=
  find_map key f t.entries

theorem map_update (f : α → β) (key : κ) (a : α) (l : List (κ × α)) :
    (update (fun _ => a) key l).map (fun e => (e.1, f e.2)) =
      update (fun _ => f a) key (l.map fun e => (e.1, f e.2)) := by
  induction l with
  | nil => rfl
  | cons e rest ih =>
    simp only [update, List.map_cons, ih]
    split <;> rfl

/-- Setting a value and changing all values can be done in either order. -/
theorem map_set (t : Table κ α) (f : α → β) (key : κ) (a : α) :
    (t.set key a).map f = (t.map f).set key (f a) := by
  have hcontains : (t.map f).contains key = t.contains key := by
    simp [contains, get?_map]
  unfold set
  rw [hcontains]
  split
  · simp only [map, modify, map_update]
  · simp [map]

/-! ## Keys and entries -/

theorem find_eq_none_iff {l : List (κ × α)} : find key l = none ↔ key ∉ l.map Prod.fst := by
  induction l with
  | nil => simp [find]
  | cons e rest ih =>
    unfold find
    split
    · next heq => simp [heq]
    · next hne => simp [ih, Ne.symm hne]

theorem get?_eq_none_iff : t.get? key = none ↔ key ∉ t.keys :=
  find_eq_none_iff

theorem contains_iff : t.contains key = true ↔ key ∈ t.keys := by
  rw [← Decidable.not_not (p := key ∈ t.keys), ← get?_eq_none_iff, ← contains_eq_false]
  simp

theorem mem_of_find {l : List (κ × α)} (h : find key l = some a) : (key, a) ∈ l := by
  induction l with
  | nil => cases h
  | cons e rest ih =>
    unfold find at h
    split at h
    · next heq =>
      cases h
      rw [← heq]
      exact List.mem_cons_self
    · exact List.mem_cons_of_mem _ (ih h)

theorem mem_of_get? (h : t.get? key = some a) : (key, a) ∈ t.entries := mem_of_find h

theorem mem_keys_of_get? (h : t.get? key = some a) : key ∈ t.keys :=
  List.mem_map.mpr ⟨(key, a), mem_of_get? h, rfl⟩

theorem find_of_mem {l : List (κ × α)} (hkeys : (l.map Prod.fst).Nodup) (h : (key, a) ∈ l) :
    find key l = some a := by
  induction l with
  | nil => cases h
  | cons e rest ih =>
    obtain ⟨hfresh, hrest⟩ := List.nodup_cons.mp hkeys
    unfold find
    rcases List.mem_cons.mp h with rfl | h
    · simp
    · have hne : e.1 ≠ key := by
        rintro rfl
        exact hfresh (List.mem_map.mpr ⟨_, h, rfl⟩)
      simp [hne, ih hrest h]

/-- With different keys, an entry is what is found under its key. -/
theorem get?_eq_some_iff (hkeys : t.keys.Nodup) : t.get? key = some a ↔ (key, a) ∈ t.entries :=
  ⟨mem_of_get?, find_of_mem hkeys⟩

/-- Adds entries at the end. -/
def extend (t : Table κ α) (added : List (κ × α)) : Table κ α := ⟨t.entries ++ added⟩

omit [DecidableEq κ] in
@[simp] theorem entries_extend (t : Table κ α) (added : List (κ × α)) :
    (t.extend added).entries = t.entries ++ added := rfl

omit [DecidableEq κ] in
@[simp] theorem extend_nil (t : Table κ α) : t.extend [] = t := by
  simp [extend]

omit [DecidableEq κ] in
@[simp] theorem extend_extend (t : Table κ α) (a b : List (κ × α)) :
    (t.extend a).extend b = t.extend (a ++ b) := by
  simp [extend]

omit [DecidableEq κ] in
@[simp] theorem keys_extend (t : Table κ α) (added : List (κ × α)) :
    (t.extend added).keys = t.keys ++ added.map Prod.fst := by
  simp [extend, keys]

theorem insert?_eq (t : Table κ α) (key : κ) (a : α) :
    t.insert? key a = if key ∈ t.keys then none else some (t.extend [(key, a)]) := by
  simp only [insert?, contains_iff]
  rfl

theorem insert?_eq_some {t' : Table κ α} :
    t.insert? key a = some t' ↔ key ∉ t.keys ∧ t' = t.extend [(key, a)] := by
  rw [insert?_eq]
  split <;> simp_all [eq_comm]

theorem insert?_eq_none : t.insert? key a = none ↔ key ∈ t.keys := by
  rw [insert?_eq]
  split <;> simp_all

omit [DecidableEq κ] in
/-- An entry whose key is free keeps the keys different. -/
theorem keys_extend_nodup (a : α) (hkeys : t.keys.Nodup) (hfresh : key ∉ t.keys) :
    (t.extend [(key, a)]).keys.Nodup := by
  rw [keys_extend, List.nodup_append]
  refine ⟨hkeys, by simp, ?_⟩
  rintro k hk _ hk' rfl
  have heq : k = key := List.mem_singleton.mp hk'
  exact hfresh (heq ▸ hk)

omit [DecidableEq κ] in
@[simp] theorem keys_map (t : Table κ α) (f : α → β) : (t.map f).keys = t.keys := by
  simp [map, keys]

end WasmBackend.Table
