import Mathlib.Data.List.Nodup
import WasmBackend.Proofs.Symbols.Linking

/-!
# When linking succeeds, and with what

An import asks for a name of a source. `Provides` says what answers it: the export table of the
catalog module of that name if there is one, else the export table of a module of the set. Linking
succeeds exactly when the modules have different names and every missing descriptor is provided; it
then fills in those descriptors and nothing else. The order of the modules matters only for which
failure is reported: export tables never change, so every lookup gives the same answer wherever in
the list its module stands.
-/

namespace WasmBackend

open Compiled

/-- The first element on which a loop that may fail does fail. -/
theorem Compiled.mapM_error {α β : Type} {f : α → Compiled β} {l : List α} {e : CompileError}
    (h : l.mapM f = .error e) :
    ∃ before a after, l = before ++ a :: after ∧ (∀ b ∈ before, ∃ c, f b = .ok c) ∧
      f a = .error e := by
  induction l with
  | nil => cases h
  | cons x rest ih =>
    rw [List.mapM_cons] at h
    cases hx : f x with
    | error e' =>
      rw [hx] at h
      cases h
      exact ⟨[], x, rest, rfl, by simp, hx⟩
    | ok y =>
      rw [hx, ok_bind] at h
      cases hrest : rest.mapM f with
      | ok ys =>
        rw [hrest] at h
        cases h
      | error e' =>
        rw [hrest] at h
        cases h
        obtain ⟨before, a, after, rfl, hbefore, ha⟩ := ih hrest
        refine ⟨x :: before, a, after, rfl, ?_, ha⟩
        intro b hb
        rcases List.mem_cons.mp hb with rfl | hb
        · exact ⟨y, hx⟩
        · exact hbefore b hb

/-- A loop whose every step gives back its element gives back the list. -/
theorem Compiled.mapM_of_fixed {α : Type} {f : α → Compiled α} {l : List α}
    (h : ∀ a ∈ l, f a = .ok a) : l.mapM f = .ok l := by
  rw [mapM_ok, List.forall₂_same]
  exact h

namespace Linker

variable {catalog : Catalog} {modules permuted linked : List ModuleInfo} {info info' : ModuleInfo}

/-! ## What answers an import -/

/-- The descriptor that answers an import: the catalog comes first. -/
inductive Provides (catalog : Catalog) (modules : List ModuleInfo) (i : ImportEntry)
    (d : Descriptor) : Prop
  | stdlib (m : ModuleInfo) (hsource : catalog.get? i.source = some m)
      (hexport : m.exports.get? i.name = some d)
  | member (m : ModuleInfo) (hsource : catalog.get? i.source = none) (hm : m ∈ modules)
      (hname : m.name = i.source) (hexport : m.exports.get? i.name = some d)

/-- Why nothing answers an import. -/
inductive Refuses (catalog : Catalog) (modules : List ModuleInfo) (i : ImportEntry) :
    CompileError → Prop
  | stdlib (m : ModuleInfo) (hsource : catalog.get? i.source = some m)
      (hexport : m.exports.get? i.name = none) :
      Refuses catalog modules i (.unknownStdlibExport i.source i.name)
  | missing (hsource : catalog.get? i.source = none) (hmissing : ∀ m ∈ modules, m.name ≠ i.source) :
      Refuses catalog modules i (.missingModule i.source)
  | member (m : ModuleInfo) (hsource : catalog.get? i.source = none) (hm : m ∈ modules)
      (hname : m.name = i.source) (hexport : m.exports.get? i.name = none) :
      Refuses catalog modules i (.unknownExport i.source i.name)

theorem Refuses.not_link {i : ImportEntry} {reason : CompileError}
    (h : Refuses catalog modules i reason) (name imported : String) (inner : CompileError) :
    reason ≠ .link name imported inner := by
  cases h <;> simp

/-- With different names, the module of a name is the only one. -/
theorem find_name_eq_some (hnames : (modules.map ModuleInfo.name).Nodup) {source : String}
    {m : ModuleInfo} :
    modules.find? (fun m => m.name == source) = some m ↔ m ∈ modules ∧ m.name = source := by
  constructor
  · intro h
    exact ⟨List.mem_of_find?_eq_some h, by simpa using List.find?_some h⟩
  · rintro ⟨hm, rfl⟩
    cases hfind : modules.find? (fun m' => m'.name == m.name) with
    | none =>
      have := List.find?_eq_none.mp hfind m hm
      simp at this
    | some m' =>
      have hname : m'.name = m.name := by simpa using List.find?_some hfind
      rw [List.inj_on_of_nodup_map hnames (List.mem_of_find?_eq_some hfind) hm hname]

theorem lookup_eq_ok (hnames : (modules.map ModuleInfo.name).Nodup) {i : ImportEntry}
    {d : Descriptor} : lookup catalog modules i = .ok d ↔ Provides catalog modules i d := by
  constructor
  · intro h
    cases hsource : catalog.get? i.source with
    | some m =>
      apply Provides.stdlib m hsource
      simp only [lookup, hsource] at h
      cases hexport : m.exports.get? i.name with
      | none => simp [hexport] at h
      | some d' =>
        rw [hexport] at h
        cases h
        rfl
    | none =>
      obtain ⟨m, hm, hname, hexport⟩ := lookup_ok h hsource
      exact .member m hsource hm hname hexport
  · rintro (⟨m, hsource, hexport⟩ | ⟨m, hsource, hm, hname, hexport⟩)
    · simp only [lookup, hsource, hexport]
    · have hfind := (find_name_eq_some hnames).mpr ⟨hm, hname⟩
      simp only [lookup, hsource, hfind, hexport]

theorem lookup_eq_error (hnames : (modules.map ModuleInfo.name).Nodup) {i : ImportEntry}
    {reason : CompileError} (h : lookup catalog modules i = .error reason) :
    Refuses catalog modules i reason := by
  unfold lookup at h
  split at h
  · next m hsource =>
    split at h
    · cases h
    · next hexport =>
      cases h
      exact .stdlib m hsource hexport
  -- The catalog comes first: a module of the same name is not asked.
  · next hsource =>
    split at h
    · next hfind =>
      cases h
      apply Refuses.missing hsource
      intro m hm hname
      have := List.find?_eq_none.mp hfind m hm
      simp [hname] at this
    · next m hfind =>
      obtain ⟨hm, hname⟩ := (find_name_eq_some hnames).mp hfind
      split at h
      · cases h
      · next hexport =>
        cases h
        exact .member m hsource hm hname hexport

/-- What answers an import does not depend on the order of the modules. -/
theorem lookup_perm (hnames : (modules.map ModuleInfo.name).Nodup) (hperm : modules.Perm permuted)
    (i : ImportEntry) : lookup catalog permuted i = lookup catalog modules i := by
  have hnames' : (permuted.map ModuleInfo.name).Nodup := (hperm.map _).nodup_iff.mp hnames
  have hfind : permuted.find? (fun m => m.name == i.source)
      = modules.find? (fun m => m.name == i.source) := by
    apply Option.ext
    intro m
    rw [find_name_eq_some hnames, find_name_eq_some hnames', hperm.mem_iff]
  unfold lookup
  rw [hfind]

/-! ## One module -/

/-- An import, before and after: a missing descriptor is filled in with what is provided, and one
that is there is left alone. -/
inductive Settles (catalog : Catalog) (modules : List ModuleInfo) :
    String × ImportEntry → String × ImportEntry → Prop
  | kept {key : String} {i : ImportEntry} (hresolved : i.isResolved = true) :
      Settles catalog modules (key, i) (key, i)
  | filled {key : String} {i : ImportEntry} {d : Descriptor} (hmissing : i.isResolved = false)
      (hprovides : Provides catalog modules i d) :
      Settles catalog modules (key, i) (key, { i with descriptor := some d })

/-- A module, before and after: its imports are settled in their order, and all else is the same. -/
structure SettlesModule (catalog : Catalog) (modules : List ModuleInfo) (info info' : ModuleInfo) :
    Prop where
  imports : List.Forall₂ (Settles catalog modules) info.imports.entries info'.imports.entries
  rest : info' = { info with imports := info'.imports }

/-- Every missing descriptor of the module is provided. -/
def Answered (catalog : Catalog) (modules : List ModuleInfo) (info : ModuleInfo) : Prop :=
  ∀ e ∈ info.unresolved, ∃ d, Provides catalog modules e.2 d

theorem Settles.of_resolves (hnames : (modules.map ModuleInfo.name).Nodup)
    {e e' : String × ImportEntry} (h : Resolves catalog modules e e') :
    Settles catalog modules e e' := by
  obtain ⟨key, i⟩ := e
  obtain ⟨d, hd | ⟨hmissing, hlookup⟩, rfl⟩ := h
  · have hd : i.descriptor = some d := hd
    have hsame : ({ i with descriptor := some d } : ImportEntry) = i := by rw [← hd]
    show Settles catalog modules (key, i) (key, { i with descriptor := some d })
    rw [hsame]
    exact .kept (by simp [ImportEntry.isResolved, hd])
  · have hmissing : i.descriptor = none := hmissing
    apply Settles.filled
    · simp [ImportEntry.isResolved, hmissing]
    · exact (lookup_eq_ok hnames).mp hlookup

theorem SettlesModule.of_links (hnames : (modules.map ModuleInfo.name).Nodup)
    (h : Links catalog modules info info') : SettlesModule catalog modules info info' :=
  ⟨h.imports.imp fun _ _ => Settles.of_resolves hnames, h.rest⟩

theorem SettlesModule.answered (h : SettlesModule catalog modules info info') :
    Answered catalog modules info := by
  intro e he
  obtain ⟨he, hmissing⟩ := List.mem_filter.mp he
  obtain ⟨e', -, hsettles⟩ := exists_of_forall₂ h.imports he
  cases hsettles with
  | kept hresolved => simp [hresolved] at hmissing
  | filled _ hprovides => exact ⟨_, hprovides⟩

/-- After linking, no descriptor is missing. -/
theorem SettlesModule.resolved (h : SettlesModule catalog modules info info') :
    ∀ e ∈ info'.imports.entries, e.2.isResolved = true := by
  intro e he
  obtain ⟨e', -, hsettles⟩ := exists_of_forall₂_right h.imports he
  cases hsettles with
  | kept hresolved => exact hresolved
  | filled _ _ => rfl

theorem resolveModule_of_resolved (h : ∀ e ∈ info.imports.entries, e.2.isResolved = true) :
    resolveModule catalog modules info = .ok info := by
  have hentries : info.imports.entries.mapM (resolveEntry catalog modules info.name)
      = .ok info.imports.entries := by
    apply mapM_of_fixed
    intro e he
    rw [resolveEntry, if_pos (h e he)]
  rw [resolveModule, hentries]
  rfl

/-- The import at which resolving a module stops: the ones before it are provided, it is not. -/
def FirstUnanswered (catalog : Catalog) (modules : List ModuleInfo) (info : ModuleInfo)
    (key : String) (reason : CompileError) : Prop :=
  ∃ before i after, info.unresolved = before ++ (key, i) :: after ∧
    (∀ e ∈ before, ∃ d, Provides catalog modules e.2 d) ∧ Refuses catalog modules i reason

theorem resolveEntry_provides (hnames : (modules.map ModuleInfo.name).Nodup) {name : String}
    {e e' : String × ImportEntry} (h : resolveEntry catalog modules name e = .ok e')
    (hmissing : e.2.isResolved = false) : ∃ d, Provides catalog modules e.2 d := by
  cases hlookup : lookup catalog modules e.2 with
  | ok d => exact ⟨d, (lookup_eq_ok hnames).mp hlookup⟩
  | error reason => simp [resolveEntry, hmissing, hlookup] at h

theorem resolveEntry_error (hnames : (modules.map ModuleInfo.name).Nodup) {name : String}
    {e : String × ImportEntry} {err : CompileError}
    (h : resolveEntry catalog modules name e = .error err) :
    e.2.isResolved = false ∧
      ∃ reason, err = .link name e.1 reason ∧ Refuses catalog modules e.2 reason := by
  unfold resolveEntry at h
  split at h
  · cases h
  · next hmissing =>
    refine ⟨by simpa using hmissing, ?_⟩
    split at h
    · cases h
    · next reason hlookup =>
      cases h
      exact ⟨reason, rfl, lookup_eq_error hnames hlookup⟩

theorem resolveModule_error (hnames : (modules.map ModuleInfo.name).Nodup) {err : CompileError}
    (h : resolveModule catalog modules info = .error err) :
    ∃ key reason, err = .link info.name key reason ∧
      FirstUnanswered catalog modules info key reason := by
  cases hentries : info.imports.entries.mapM (resolveEntry catalog modules info.name) with
  | ok entries =>
    rw [resolveModule, hentries] at h
    cases h
  | error err' =>
    rw [resolveModule, hentries] at h
    cases h
    obtain ⟨before, e, after, hsplit, hbefore, herror⟩ := mapM_error hentries
    obtain ⟨hmissing, reason, rfl, hrefuses⟩ := resolveEntry_error hnames herror
    refine ⟨e.1, reason, rfl, before.filter (fun e => !e.2.isResolved), e.2,
      after.filter (fun e => !e.2.isResolved), ?_, ?_, hrefuses⟩
    · rw [ModuleInfo.unresolved, hsplit, List.filter_append, List.filter_cons]
      simp [hmissing]
    · intro e' he'
      obtain ⟨he', hmissing'⟩ := List.mem_filter.mp he'
      obtain ⟨e'', hok⟩ := hbefore e' he'
      exact resolveEntry_provides hnames hok (by simpa using hmissing')

/-- An import at which resolving stops is one that nothing provides. -/
theorem FirstUnanswered.not_answered (hnames : (modules.map ModuleInfo.name).Nodup) {key : String}
    {reason : CompileError} (h : FirstUnanswered catalog modules info key reason) :
    ¬ Answered catalog modules info := by
  obtain ⟨before, i, after, hsplit, -, hrefuses⟩ := h
  intro hanswered
  obtain ⟨d, hprovides⟩ := hanswered (key, i) (by simp [hsplit])
  cases hrefuses with
  | stdlib m hsource hexport =>
    cases hprovides with
    | stdlib m' hsource' hexport' => simp_all
    | member m' hsource' => simp_all
  | missing hsource hmissing =>
    cases hprovides with
    | stdlib m' hsource' => simp_all
    | member m' hsource' hm' hname' => exact hmissing m' hm' hname'
  | member m hsource hm hname hexport =>
    cases hprovides with
    | stdlib m' hsource' => simp_all
    | member m' hsource' hm' hname' hexport' =>
      have hsame : m = m' := List.inj_on_of_nodup_map hnames hm hm' (hname.trans hname'.symm)
      subst hsame
      simp_all

end Linker

/-! ## The whole list -/

open Linker

variable {catalog : Catalog} {modules permuted linked linked' : List ModuleInfo}

theorem link_of_nodup (hnames : (modules.map ModuleInfo.name).Nodup) :
    link modules catalog = modules.mapM (resolveModule catalog modules) := by
  have hnone : firstRepeated? [] (modules.map ModuleInfo.name) = none :=
    firstRepeated?_eq_none.mpr ⟨hnames, by simp⟩
  rw [link, hnone]
  exact resolveAll_eq_mapM catalog modules

theorem link_settles (h : link modules catalog = .ok linked) :
    List.Forall₂ (SettlesModule catalog modules) modules linked := by
  obtain ⟨hnames, hlinks⟩ := link_ok h
  exact hlinks.imp fun _ _ => SettlesModule.of_links hnames

/-- With different names, linking stops at the first module that has an import nothing provides. -/
theorem link_error (hnames : (modules.map ModuleInfo.name).Nodup) {err : CompileError}
    (h : link modules catalog = .error err) :
    ∃ before info after key reason, modules = before ++ info :: after ∧
      (∀ m ∈ before, Answered catalog modules m) ∧
      FirstUnanswered catalog modules info key reason ∧ err = .link info.name key reason := by
  rw [link_of_nodup hnames] at h
  obtain ⟨before, info, after, hsplit, hbefore, herror⟩ := mapM_error h
  obtain ⟨key, reason, rfl, hfirst⟩ := resolveModule_error hnames herror
  refine ⟨before, info, after, key, reason, hsplit, ?_, hfirst, rfl⟩
  intro m hm
  obtain ⟨m', hok⟩ := hbefore m hm
  exact (SettlesModule.of_links hnames (resolveModule_ok hok)).answered

theorem link_succeeds_iff :
    (∃ linked, link modules catalog = .ok linked) ↔
      (modules.map ModuleInfo.name).Nodup ∧ ∀ m ∈ modules, Answered catalog modules m := by
  constructor
  · rintro ⟨linked, h⟩
    refine ⟨(link_ok h).1, ?_⟩
    intro m hm
    obtain ⟨m', -, hsettles⟩ := exists_of_forall₂ (link_settles h) hm
    exact hsettles.answered
  · rintro ⟨hnames, hanswered⟩
    cases h : link modules catalog with
    | ok linked => exact ⟨linked, rfl⟩
    | error err =>
      obtain ⟨before, info, after, key, reason, rfl, -, hfirst, -⟩ := link_error hnames h
      exact absurd (hanswered info (by simp)) (hfirst.not_answered hnames)

theorem link_names (h : link modules catalog = .ok linked) :
    linked.map ModuleInfo.name = modules.map ModuleInfo.name :=
  (map_eq_of_forall₂ (link_ok h).2 fun _ _ hlinks => hlinks.name.symm).symm

theorem relink (h : link modules catalog = .ok linked) (catalog' : Catalog) :
    link linked catalog' = .ok linked := by
  have hnames : (linked.map ModuleInfo.name).Nodup := link_names h ▸ (link_ok h).1
  rw [link_of_nodup hnames]
  apply mapM_of_fixed
  intro m hm
  obtain ⟨m', -, hsettles⟩ := exists_of_forall₂_right (link_settles h) hm
  exact resolveModule_of_resolved hsettles.resolved

theorem Linker.Answered.perm (hperm : modules.Perm permuted) {info : ModuleInfo}
    (h : Answered catalog modules info) : Answered catalog permuted info := by
  intro e he
  obtain ⟨d, hprovides⟩ := h e he
  refine ⟨d, ?_⟩
  cases hprovides with
  | stdlib m hsource hexport => exact .stdlib m hsource hexport
  | member m hsource hm hname hexport =>
    exact .member m hsource (hperm.mem_iff.mp hm) hname hexport

theorem link_succeeds_perm (hperm : modules.Perm permuted)
    (h : ∃ linked, link modules catalog = .ok linked) :
    ∃ linked, link permuted catalog = .ok linked := by
  rw [link_succeeds_iff] at h ⊢
  refine ⟨(hperm.map _).nodup_iff.mp h.1, ?_⟩
  intro m hm
  exact (h.2 m (hperm.mem_iff.mpr hm)).perm hperm

/-- The linked form of a module, whatever its place in the list. -/
theorem link_eq_map (hnames : (modules.map ModuleInfo.name).Nodup) (hperm : modules.Perm permuted)
    (h : link permuted catalog = .ok linked) :
    linked = permuted.map fun m =>
      ((resolveModule catalog modules m).toOption.getD m) := by
  have hnames' : (permuted.map ModuleInfo.name).Nodup := (hperm.map _).nodup_iff.mp hnames
  rw [link_of_nodup hnames', mapM_ok] at h
  have hsame : resolveModule catalog permuted = resolveModule catalog modules :=
    resolveModule_congr (funext (lookup_perm hnames hperm))
  rw [hsame] at h
  rw [← List.map_id linked]
  refine (map_eq_of_forall₂ h ?_).symm
  intro m m' hm
  rw [hm]
  rfl

theorem link_perm (hperm : modules.Perm permuted) (h : link modules catalog = .ok linked)
    (h' : link permuted catalog = .ok linked') :
    (modules.zip linked).Perm (permuted.zip linked') := by
  have hnames := (link_ok h).1
  rw [link_eq_map hnames (List.Perm.refl _) h, link_eq_map hnames hperm h',
    ← List.map_prod_left_eq_zip, ← List.map_prod_left_eq_zip]
  exact hperm.map _

/-- Linking resolves exactly what is missing. It succeeds if and only if the modules have different
names and every missing descriptor is provided; then each module keeps its place and everything but
those descriptors, a second run changes nothing whatever the catalog, and the modules in another
order give the same modules in that order. If it fails with different names, the error names the
first module with an import that nothing provides, and the first such import of it. -/
theorem link_resolves_exactly (catalog : Catalog) (modules : List ModuleInfo) :
    ((∃ linked, link modules catalog = .ok linked) ↔
      (modules.map ModuleInfo.name).Nodup ∧
        ∀ m ∈ modules, ∀ e ∈ m.unresolved, ∃ d, Provides catalog modules e.2 d) ∧
    (∀ linked, link modules catalog = .ok linked →
      List.Forall₂ (SettlesModule catalog modules) modules linked ∧
        ∀ catalog', link linked catalog' = .ok linked) ∧
    (∀ permuted, modules.Perm permuted →
      ((∃ linked, link modules catalog = .ok linked) ↔
        ∃ linked, link permuted catalog = .ok linked) ∧
      ∀ linked linked', link modules catalog = .ok linked → link permuted catalog = .ok linked' →
        (modules.zip linked).Perm (permuted.zip linked')) ∧
    ∀ err, (modules.map ModuleInfo.name).Nodup → link modules catalog = .error err →
      ∃ before info after key reason, modules = before ++ info :: after ∧
        (∀ m ∈ before, ∀ e ∈ m.unresolved, ∃ d, Provides catalog modules e.2 d) ∧
        FirstUnanswered catalog modules info key reason ∧
        err = .link info.name key reason ∧ ∀ m i inner, reason ≠ .link m i inner := by
  refine ⟨link_succeeds_iff, ?_, ?_, ?_⟩
  · intro linked h
    exact ⟨link_settles h, relink h⟩
  · intro permuted hperm
    refine ⟨⟨link_succeeds_perm hperm, link_succeeds_perm hperm.symm⟩, ?_⟩
    intro linked linked' h h'
    exact link_perm hperm h h'
  · intro err hnames h
    -- The reason is one of three, none of which is an error of linking itself.
    obtain ⟨before, info, after, key, reason, hsplit, hbefore, hfirst, herr⟩ := link_error hnames h
    refine ⟨before, info, after, key, reason, hsplit, hbefore, hfirst, herr, ?_⟩
    obtain ⟨_, _, _, -, -, hrefuses⟩ := hfirst
    exact hrefuses.not_link

/-- Imports a name of a module of the set and one of the catalog. -/
def importer : ModuleInfo where
  name := "app"
  imports := ⟨[("helper", ⟨"lib", "helper", none⟩), ("root", ⟨"math", "sqrt", none⟩)]⟩
  data := .startingAt 16

def exporter : ModuleInfo where
  name := "lib"
  exports := ⟨[("helper", .global .i32 false)]⟩
  data := .startingAt 16

def mathCatalog : Catalog :=
  Catalog.empty.insert
    { name := "math", exports := ⟨[("sqrt", .global .f32 false)]⟩, data := .startingAt 0 }

/-- The two modules link in either order, to the same two modules. Without the catalog linking
stops at the second import of the first module. -/
theorem link_importer_exporter :
    (∃ linked linked', link [importer, exporter] mathCatalog = .ok linked ∧
      link [exporter, importer] mathCatalog = .ok linked' ∧
      List.Forall₂ (SettlesModule mathCatalog [importer, exporter]) [importer, exporter] linked ∧
      link linked .empty = .ok linked ∧
      ([importer, exporter].zip linked).Perm ([exporter, importer].zip linked')) ∧
    ∃ before info after key reason, [importer, exporter] = before ++ info :: after ∧
      FirstUnanswered .empty [importer, exporter] info key reason ∧
      CompileError.link "app" "root" (.missingModule "math") = .link info.name key reason := by
  have hperm : [importer, exporter].Perm [exporter, importer] := List.Perm.swap _ _ _
  obtain ⟨linked, h⟩ : ∃ linked, link [importer, exporter] mathCatalog = .ok linked :=
    ⟨_, rfl⟩
  obtain ⟨linked', h'⟩ : ∃ linked, link [exporter, importer] mathCatalog = .ok linked :=
    ⟨_, rfl⟩
  have hfails : link [importer, exporter] .empty
      = .error (.link "app" "root" (.missingModule "math")) := rfl
  obtain ⟨-, hsuccess, horder, -⟩ := link_resolves_exactly mathCatalog [importer, exporter]
  obtain ⟨-, -, -, hfailure⟩ := link_resolves_exactly .empty [importer, exporter]
  constructor
  · exact ⟨linked, linked', h, h', (hsuccess linked h).1, (hsuccess linked h).2 .empty,
      (horder _ hperm).2 linked linked' h h'⟩
  · obtain ⟨before, info, after, key, reason, hsplit, -, hfirst, herr, -⟩ :=
      hfailure _ (by decide) hfails
    exact ⟨before, info, after, key, reason, hsplit, hfirst, herr⟩

end WasmBackend
