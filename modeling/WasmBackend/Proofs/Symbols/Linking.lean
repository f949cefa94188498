import WasmBackend.Link.Resolve
import WasmBackend.Proofs.Symbols.Declarations

/-!
# What linking resolves

Linking gives every import the descriptor that the module it names publishes, and changes nothing
else. Together with what extraction records this says where each import of a program comes from: a
catalog module, or a declaration of another module of the set, marked `export`. When linking fails
is left to `Symbols.Resolution`.
-/

namespace WasmBackend

open Compiled

/-- No name is repeated exactly if the names are different, from each other and from those seen. -/
theorem firstRepeated?_eq_none {seen names : List String} :
    firstRepeated? seen names = none ↔ names.Nodup ∧ ∀ name ∈ names, name ∉ seen := by
  induction names generalizing seen with
  | nil => simp [firstRepeated?]
  | cons name rest ih =>
    unfold firstRepeated?
    split
    · next hseen =>
      simp only [List.contains_iff_mem] at hseen
      simp [hseen]
    · next hseen =>
      simp only [List.contains_iff_mem] at hseen
      rw [ih, List.nodup_cons]
      constructor
      · rintro ⟨hnodup, hfresh⟩
        refine ⟨⟨fun hmem => ?_, hnodup⟩, ?_⟩
        · exact hfresh name hmem List.mem_cons_self
        · rintro other hother
          rcases List.mem_cons.mp hother with rfl | hother
          · exact hseen
          · exact fun h => hfresh other hother (List.mem_cons_of_mem _ h)
      · rintro ⟨⟨hname, hnodup⟩, hfresh⟩
        refine ⟨hnodup, fun other hother h => ?_⟩
        rcases List.mem_cons.mp h with rfl | h
        · exact hname hother
        · exact hfresh other (List.mem_cons_of_mem _ hother) h

namespace Linker

variable {catalog : Catalog} {modules linked : List ModuleInfo} {info info' : ModuleInfo}

/-- An import from outside the catalog gets what the module it names exports. -/
theorem lookup_ok {i : ImportEntry} {d : Descriptor} (h : lookup catalog modules i = .ok d)
    (hcatalog : catalog.get? i.source = none) :
    ∃ info ∈ modules, info.name = i.source ∧ info.exports.get? i.name = some d := by
  unfold lookup at h
  simp only [hcatalog] at h
  cases hfind : modules.find? (fun m => m.name == i.source) with
  | none => simp [hfind] at h
  | some info =>
    simp only [hfind] at h
    refine ⟨info, List.mem_of_find?_eq_some hfind, by simpa using List.find?_some hfind, ?_⟩
    cases hexport : info.exports.get? i.name with
    | none => simp [hexport] at h
    | some d' =>
      simp only [hexport] at h
      cases h
      rfl

/-- An import, before and after: it has a descriptor, the one it had or else the one it asks for. -/
def Resolves (catalog : Catalog) (modules : List ModuleInfo) (e e' : String × ImportEntry) : Prop :=
  ∃ d, (e.2.descriptor = some d ∨
      e.2.descriptor = none ∧ lookup catalog modules e.2 = .ok d) ∧
    e' = (e.1, { e.2 with descriptor := some d })

/-- A module, before and after: its imports are resolved, the rest is as it was. -/
structure Links (catalog : Catalog) (modules : List ModuleInfo) (info info' : ModuleInfo) :
    Prop where
  imports : List.Forall₂ (Resolves catalog modules) info.imports.entries info'.imports.entries
  rest : info' = { info with imports := info'.imports }

theorem resolveEntry_ok {name : String} {e e' : String × ImportEntry}
    (h : resolveEntry catalog modules name e = .ok e') : Resolves catalog modules e e' := by
  obtain ⟨key, source, field, descriptor⟩ := e
  unfold resolveEntry at h
  cases descriptor with
  | some d =>
    cases h
    exact ⟨d, .inl rfl, rfl⟩
  | none =>
    simp only [ImportEntry.isResolved, Option.isSome_none, Bool.false_eq_true, if_false] at h
    cases hlookup : lookup catalog modules ⟨source, field, none⟩ with
    | error _ => simp [hlookup] at h
    | ok d =>
      simp only [hlookup] at h
      cases h
      exact ⟨d, .inr ⟨rfl, hlookup⟩, rfl⟩

theorem resolveModule_ok (h : resolveModule catalog modules info = .ok info') :
    Links catalog modules info info' := by
  unfold resolveModule at h
  simp only [bind_ok, pure_ok, mapM_ok] at h
  obtain ⟨entries, hentries, rfl⟩ := h
  exact ⟨hentries.imp fun _ _ => resolveEntry_ok, rfl⟩

/-! Modules are resolved in place, so a later one sees the earlier ones resolved. It makes no
difference: what is looked up in a module is what it publishes, and that never changes. -/

/-- What other modules can see of a module. -/
def published (info : ModuleInfo) : String × Table String Descriptor := (info.name, info.exports)

theorem find?_published (modules : List ModuleInfo) (source : String) :
    (modules.find? fun m => m.name == source).map published =
      (modules.map published).find? fun m => m.1 == source := by
  rw [List.find?_map]
  rfl

theorem lookup_congr {modules' : List ModuleInfo}
    (h : modules.map published = modules'.map published) :
    lookup catalog modules = lookup catalog modules' := by
  funext i
  have hfind : (modules.find? fun m => m.name == i.source).map published =
      (modules'.find? fun m => m.name == i.source).map published := by
    rw [find?_published, find?_published, h]
  unfold lookup
  cases catalog.get? i.source with
  | some stdlib => rfl
  | none =>
    cases hm : modules.find? fun m => m.name == i.source with
    | none =>
      cases hm' : modules'.find? fun m => m.name == i.source with
      | none => rfl
      | some m' => simp [hm, hm'] at hfind
    | some m =>
      cases hm' : modules'.find? fun m => m.name == i.source with
      | none => simp [hm, hm'] at hfind
      | some m' =>
        have hexports : m.exports = m'.exports := by
          simp only [hm, hm', Option.map_some, Option.some.injEq, published, Prod.mk.injEq] at hfind
          exact hfind.2
        simp only [hexports]

theorem resolveModule_congr {modules' : List ModuleInfo}
    (h : lookup catalog modules = lookup catalog modules') :
    resolveModule catalog modules = resolveModule catalog modules' := by
  funext m
  unfold resolveModule resolveEntry
  rw [h]

theorem resolveAll_eq {done rest : List ModuleInfo}
    (h : (done ++ rest).map published = modules.map published) :
    resolveAll catalog done rest =
      Except.map (done ++ ·) (rest.mapM (resolveModule catalog modules)) := by
  induction rest generalizing done with
  | nil => simp [resolveAll, Except.map, pure, Except.pure]
  | cons m rest ih =>
    rw [resolveAll, resolveModule_congr (lookup_congr h), List.mapM_cons]
    cases hm : resolveModule catalog modules m with
    | error e => rfl
    | ok resolved =>
      have hkept : published resolved = published m := by
        rw [(resolveModule_ok hm).rest]
        rfl
      rw [ok_bind, ih (by simpa [hkept] using h), ok_bind]
      cases rest.mapM (resolveModule catalog modules) with
      | error e => rfl
      | ok others => simp [Except.map, ok_bind, pure, Except.pure]

/-- Resolving in place is resolving against the modules as they were at first. -/
theorem resolveAll_eq_mapM (catalog : Catalog) (modules : List ModuleInfo) :
    resolveAll catalog [] modules = modules.mapM (resolveModule catalog modules) := by
  have hall : resolveAll catalog [] modules =
      Except.map ([] ++ ·) (modules.mapM (resolveModule catalog modules)) := resolveAll_eq rfl
  rw [hall]
  cases modules.mapM (resolveModule catalog modules) <;> rfl

theorem link_ok (h : link modules catalog = .ok linked) :
    (modules.map ModuleInfo.name).Nodup ∧
      List.Forall₂ (Links catalog modules) modules linked := by
  unfold link at h
  split at h
  · cases h
  · next hnames =>
    refine ⟨(firstRepeated?_eq_none.mp hnames).1, ?_⟩
    rw [resolveAll_eq_mapM] at h
    exact (mapM_ok.mp h).imp fun _ _ => resolveModule_ok

namespace Links

theorem name (h : Links catalog modules info info') : info'.name = info.name := by
  rw [h.rest]

theorem keys (h : Links catalog modules info info') : info'.imports.keys = info.imports.keys := by
  refine (map_eq_of_forall₂ h.imports ?_).symm
  rintro e _ ⟨_, _, rfl⟩
  rfl

theorem distinct (h : Links catalog modules info info') (hinfo : info.Distinct) :
    info'.Distinct := by
  rw [h.rest]
  exact
    { hinfo with
      imports := h.keys ▸ hinfo.imports
      imported_not_function := h.keys ▸ hinfo.imported_not_function
      global_not_imported := h.keys ▸ hinfo.global_not_imported }

/-- A resolved import is an import of the module with the descriptor that it asks for. -/
theorem import_of_mem (h : Links catalog modules info info') {e' : String × ImportEntry}
    (he' : e' ∈ info'.imports.entries) :
    ∃ e ∈ info.imports.entries, Resolves catalog modules e e' :=
  exists_of_forall₂_right h.imports he'

end Links

/-- The linked form of a module is found by its name. -/
theorem links_of_name (h : link modules catalog = .ok linked) (hinfo : info ∈ modules)
    (hinfo' : info' ∈ linked) (hname : info'.name = info.name) :
    Links catalog modules info info' := by
  obtain ⟨hnodup, hall⟩ := link_ok h
  obtain ⟨m, hm, hlinks⟩ := exists_of_forall₂_right hall hinfo'
  obtain rfl : m = info :=
    List.inj_on_of_nodup_map hnodup hm hinfo (hlinks.name.symm.trans hname)
  exact hlinks

end Linker

end WasmBackend
