import WasmBackend.Proofs.Traversal.Extraction

/-!
# When extraction fails

Declarations are collected and then literals are placed. What goes wrong with a name is a clash
(`Module.Clash`); everything else is about what is declared (`CompileError.ofContent`): a layout, an
initialiser, a literal, or the room that is left for it. Which of several faults is reported is not
said here.
-/

namespace WasmBackend

open Compiled

/-! ## Faults that are not about names -/

/-- Any arena is like itself, if missing nodes count as faults of what is declared. -/
theorem Arena.alike_self (arena : Arena) :
    arena.Alike arena (fun e => e.ofContent = true) fun _ => True where
  same := fun _ _ => rfl
  child := fun _ _ _ _ _ _ => trivial
  whole := .inl fun _ => rfl

/-- An error about names is about a clash. -/
theorem Module.Fault.cases {m : Module} {e : CompileError} (h : m.Fault e) :
    (∃ kind name, e = .duplicateDefinition kind name ∧ m.Clash kind name) ∨
      e.ofContent = true := by
  cases h with
  | clash hclash => exact .inl ⟨_, _, rfl, hclash⟩
  | layout hdecl hlayout =>
    obtain ⟨field, hfield, rfl⟩ | ⟨limit, rfl⟩ := StructLayout.ofFields_error hlayout
    · exact .inl ⟨_, _, rfl, .member hdecl hfield⟩
    · exact .inr rfl
  | shape _ hshape =>
    exact .inr
      ((globalShape_alike m.arena.alike_self CompileError.admits_self _ trivial).2 _ hshape)

theorem Placement.visitModule_alike (structs : Table String StructLayout) (m : Module) :
    PlaceM.AgreesIn (fun e => e.ofContent = true) ((visitor m.arena structs).visitModule m)
      ((visitor m.arena structs).visitModule m) := by
  refine visitModule_lasting (C := fun x => PlaceM.AgreesIn (fun e => e.ofContent = true) x x)
    ⟨.pure (), fun hx hy => hx.bind fun _ => hy, fun _ _ => .error rfl⟩ ?_
    fun _ _ => expect_alike _ _
  intro id e walk he hwalk
  exact visitor_expr_alike m.arena.alike_self CompileError.admits_self structs trivial he hwalk

namespace Module

variable {m : Module} {info : ModuleInfo} {base : Nat} {e : CompileError}

/-- Extraction fails on a clash, or on what is declared. -/
theorem extract_error (h : m.extract base = .error e) :
    (∃ kind name, e = .duplicateDefinition kind name ∧ m.Clash kind name) ∨
      e.ofContent = true := by
  obtain hdeclared | ⟨declared, -, h⟩ := bind_error.mp h
  · exact (declarations_error hdeclared).cases
  · obtain hplaced | ⟨_, -, h⟩ := bind_error.mp h
    · exact .inr ((Placement.visitModule_alike _ _ _).2 _ hplaced)
    · cases h

end Module

/-- The tables of a module are its declarations, and there are none if two of them clash. That is
all that can be wrong with names: an error about a name is about a clash, and without one only a
layout or an initialiser keeps declarations from being collected. -/
theorem extraction_records_declarations (m : Module) (base : Nat) :
    (∀ info, m.extract base = .ok info →
      info.Records m ∧ info.Distinct ∧ info.exports.keys = m.exportedNames ∧
        (∀ name ∈ info.imports.keys, name ∉ info.functions.keys ∧ name ∉ info.globals.keys)) ∧
    (∀ kind name, m.Clash kind name → ∃ e, m.extract base = .error e) ∧
    (∀ kind name, m.extract base = .error (.duplicateDefinition kind name) →
      m.Clash kind name) ∧
    ((∃ info, m.declarations base = .ok info) ↔
      (∀ kind name, ¬m.Clash kind name) ∧
      (∀ decl ∈ m.structDecls, ∃ layout,
        StructLayout.ofFields decl.name decl.fields decl.exported = .ok layout) ∧
      ∀ decl ∈ m.letDecls, ∃ shape, globalShape m.arena decl = .ok shape) := by
  refine ⟨?_, ?_, ?_, m.declarations_ok_iff base⟩
  · intro info h
    have hrecords := Module.extract_records h
    have hdistinct := Module.extract_distinct h
    exact ⟨hrecords, hdistinct, hrecords.exports_keys, fun name himport =>
      ⟨hdistinct.imported_not_function name himport,
        fun hglobal => hdistinct.global_not_imported name hglobal himport⟩⟩
  · intro kind name hclash
    cases h : m.extract base with
    | ok info =>
      exact absurd hclash ((Module.extract_records h).not_clash (Module.extract_distinct h))
    | error e => exact ⟨e, rfl⟩
  · intro kind name h
    obtain ⟨_, _, heq, hclash⟩ | hcontent := Module.extract_error h
    · cases heq
      exact hclash
    · cases hcontent

/-- Declarations of every kind, some of them exported, in no particular order. -/
def almanac : Module where
  name := "almanac"
  items := [1, 4, 2, 3, 5]
  arena := {
    exprs := #[.int 7, .str "moon"]
    stmts := #[
      .ret none,
      .letting ⟨"label", none, 1, true⟩,
      .struct ⟨"point", [⟨"x", .i32⟩, ⟨"y", .i32⟩], true⟩,
      .importing ⟨"math", ["sqrt", "floor"]⟩,
      .function ⟨"phase", [⟨"day", .i32⟩], .void, 0, true⟩,
      .letting ⟨"limit", none, 0, false⟩] }

/-- The same with a function listed again. -/
def almanacTwice : Module := { almanac with items := [1, 4, 2, 3, 5, 4] }

/-- The first has its tables, and the second fails for that function. -/
theorem almanac_recorded :
    (∃ info, almanac.extract 16 = .ok info ∧ info.Records almanac ∧ info.Distinct ∧
      info.exports.keys = ["point", "phase", "label"]) ∧
    (∃ info, almanac.declarations 16 = .ok info) ∧
    (∃ e, almanacTwice.extract 16 = .error e) ∧
    almanacTwice.Clash .function "phase" := by
  obtain ⟨hok, -, -, hcollects⟩ := extraction_records_declarations almanac 16
  obtain ⟨-, hfails, hclash, -⟩ := extraction_records_declarations almanacTwice 16
  have hextract : (almanac.extract 16).toOption.isSome = true := by decide +kernel
  obtain ⟨info, hinfo⟩ := Option.isSome_iff_exists.mp hextract
  rw [← eq_ok_iff] at hinfo
  obtain ⟨hrecords, hdistinct, hexports, -⟩ := hok info hinfo
  have htwice : almanacTwice.extract 16 = .error (.duplicateDefinition .function "phase") := by
    decide +kernel
  refine ⟨⟨info, hinfo, hrecords, hdistinct, hexports.trans (by decide +kernel)⟩, ?_,
    hfails _ _ (hclash _ _ htwice), hclash _ _ htwice⟩
  refine hcollects.mpr ⟨fun _ _ => hrecords.not_clash hdistinct, ?_, ?_⟩
  · exact fun _ hdecl => hrecords.exists_layout hdecl
  · exact fun _ hdecl => hrecords.exists_shape hdecl

end WasmBackend
