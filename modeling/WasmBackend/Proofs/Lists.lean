import Mathlib.Data.List.Duplicate
import Mathlib.Data.List.Forall2

/-!
# Lists and arrays

What is needed of lists and arrays in general and is not in the library. Nothing here is about
programs.
-/

namespace WasmBackend

variable {α β γ : Type}

section Related

variable {R : α → β → Prop} {l : List α} {l' : List β}

/-- What is on one side of a relation of lists has its counterpart on the other. -/
theorem exists_of_forall₂ (h : List.Forall₂ R l l') {a : α} (ha : a ∈ l) : ∃ b ∈ l', R a b := by
  induction h with
  | nil => cases ha
  | cons hR _ ih =>
    rcases List.mem_cons.mp ha with rfl | ha
    · exact ⟨_, List.mem_cons_self, hR⟩
    · obtain ⟨b, hb, hR⟩ := ih ha
      exact ⟨b, List.mem_cons_of_mem _ hb, hR⟩

theorem exists_of_forall₂_right (h : List.Forall₂ R l l') {b : β} (hb : b ∈ l') :
    ∃ a ∈ l, R a b := exists_of_forall₂ h.flip hb

/-- What related elements have in common, related lists have in common. -/
theorem map_eq_of_forall₂ {f : α → γ} {g : β → γ} (h : List.Forall₂ R l l')
    (hfg : ∀ a b, R a b → f a = g b) : l.map f = l'.map g := by
  induction h with
  | nil => rfl
  | cons hR _ ih => rw [List.map_cons, List.map_cons, hfg _ _ hR, ih]

end Related

theorem duplicate_of_mem {a : α} {before after : List α} (h : a ∈ before) :
    List.Duplicate a (before ++ a :: after) := by
  rw [List.duplicate_iff_sublist]
  exact (List.singleton_sublist.mpr h).append (after.nil_sublist.cons_cons a)

/-- What is kept of a list under the names of its elements is a sublist of the names. -/
theorem filterMap_sublist_map {p : α → Option β} {g : α → β} {l : List α}
    (h : ∀ a ∈ l, ∀ b, p a = some b → b = g a) : (l.filterMap p).Sublist (l.map g) := by
  induction l with
  | nil => exact .slnil
  | cons a rest ih =>
    have hrest := ih fun a ha => h a (List.mem_cons_of_mem _ ha)
    rw [List.map_cons]
    cases ha : p a with
    | none =>
      rw [List.filterMap_cons_none ha]
      exact hrest.cons _
    | some b =>
      rw [List.filterMap_cons_some ha, h a List.mem_cons_self b ha]
      exact hrest.cons_cons _

theorem any_congr_mem {p q : α → Bool} {l : List α} (h : ∀ a ∈ l, p a = q a) :
    l.any p = l.any q := by
  induction l with
  | nil => rfl
  | cons a rest ih =>
    obtain ⟨ha, hrest⟩ := List.forall_mem_cons.mp h
    rw [List.any_cons, List.any_cons, ha, ih hrest]

theorem getElem?_push_some {xs : Array α} {x y : α} {i : Nat}
    (h : (xs.push x)[i]? = some y) : xs[i]? = some y ∨ i = xs.size ∧ y = x := by
  rw [Array.getElem?_push] at h
  split at h
  · next heq => exact .inr ⟨heq, (Option.some.inj h).symm⟩
  · exact .inl h

end WasmBackend
