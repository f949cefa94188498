import WasmBackend.Proofs.Scoping.Locals

/-!
# Which variables share a local

The name of a member's local is joined from two names by an underscore, so different origins can
come to the same name: the member `m` of `b`, and a variable that is called `b_m`. A body is
accepted exactly if names determine types among its declarations and none is a parameter's, and
sharing between different origins goes unnoticed if the types happen to agree. It cannot happen when
no variable has an underscore in its name (`LocalOrigin.localName_inj`).

That two such variables then overwrite each other is left out: this is about names and types.
-/

namespace WasmBackend

open Compiled Lower

/-! ## Joined names -/

namespace LocalOrigin

theorem toList_flattenedName (base member : String) :
    (Scope.flattenedName base member).toList = base.toList ++ '_' :: member.toList := by
  simp [Scope.flattenedName]

/-- A name can be taken apart at its first underscore. -/
theorem flattenedName_inj_of_plain {base base' member member' : String} (hbase : '_' ∉ base.toList)
    (hbase' : '_' ∉ base'.toList)
    (h : Scope.flattenedName base member = Scope.flattenedName base' member') :
    base = base' ∧ member = member' := by
  have hlist := congrArg String.toList h
  rw [toList_flattenedName, toList_flattenedName] at hlist
  have hplain {cs : List Char} (hcs : '_' ∉ cs) (rest : List Char) :
      (cs ++ '_' :: rest).takeWhile (· != '_') = cs := by
    rw [List.takeWhile_append_of_pos]
    · simp
    · intro c hc
      simpa using fun heq : c = '_' => hcs (heq ▸ hc)
  have heq : base.toList = base'.toList := by
    rw [← hplain hbase member.toList, hlist, hplain hbase' member'.toList]
  rw [heq] at hlist
  refine ⟨String.toList_inj.mp heq, String.toList_inj.mp ?_⟩
  simpa using hlist

/-- Without underscores in the names of variables, different origins have different names. -/
theorem localName_inj {a b : LocalOrigin} (ha : '_' ∉ a.variableName.toList)
    (hb : '_' ∉ b.variableName.toList) (h : a.localName = b.localName) : a = b := by
  have hmember (base member : String) : '_' ∈ (Scope.flattenedName base member).toList := by
    rw [toList_flattenedName]
    simp
  cases a with
  | whole x =>
    cases b with
    | whole y => exact congrArg whole h
    | member base field =>
      have heq : x = Scope.flattenedName base field := h
      exact absurd (hmember base field) (heq ▸ ha)
  | member base field =>
    cases b with
    | whole y =>
      have heq : Scope.flattenedName base field = y := h
      exact absurd (hmember base field) (heq ▸ hb)
    | member base' field' =>
      obtain ⟨rfl, rfl⟩ := flattenedName_inj_of_plain ha hb h
      rfl

end LocalOrigin

theorem Source.variableName_of_letOrigins {info : ModuleInfo} {arena : Arena} {decl : LetDecl}
    {o : LocalOrigin} (h : o ∈ letOrigins info arena decl) : o.variableName = decl.name := by
  unfold letOrigins at h
  split at h
  · split at h
    · rcases List.mem_append.mp h with hmember | hwhole
      · obtain ⟨field, -, rfl⟩ := List.mem_map.mp hmember
        rfl
      · rw [List.mem_singleton.mp hwhole]
        rfl
    · rw [List.mem_singleton.mp h]
      rfl
  · rw [List.mem_singleton.mp h]
    rfl

/-! ## Frames without locals -/

namespace Frame

variable {f : Frame} (hlocals : f.locals = {})
include hlocals

theorem admitsAll_iff_of_no_locals {ds : List Declaration} :
    f.AdmitsAll ds ↔ (∀ d ∈ ds, d.name ∉ f.params.keys) ∧ Declaration.Agree ds := by
  have hadmits (d : Declaration) : f.Admits d ↔ d.name ∉ f.params.keys := by
    unfold Admits
    rw [hlocals]
    exact and_iff_left nofun
  simp only [admitsAll_iff, hadmits]

/-- What can stand in the way of a further declaration. -/
theorem not_admits_addAll {ds : List Declaration} {d : Declaration}
    (h : ¬ (f.addAll ds).Admits d) :
    d.name ∈ f.params.keys ∨ ∃ e ∈ ds, e.name = d.name ∧ e.ty ≠ d.ty := by
  by_contra hfree
  obtain ⟨hparam, hagree⟩ := not_or.mp hfree
  refine h ⟨by rwa [params_addAll], fun v hv => ?_⟩
  rw [get?_addAll, hlocals] at hv
  obtain ⟨e, he, rfl⟩ := Option.map_eq_some_iff.mp hv
  have hname : e.name = d.name := by simpa using List.find?_some he
  by_contra hty
  exact hagree ⟨e, List.mem_of_find?_eq_some he, hname, hty⟩

end Frame

/-! ## Bodies -/

/-- If statements refer to what exists, then declaring the locals of one is declaring its lets in
order, also if that fails. -/
theorem declareLocals_eq {info : ModuleInfo} {arena : Arena} (harena : arena.WellReferenced)
    {id : StmtId} (hid : id < arena.stmts.size) :
    declareLocals info arena id = (Source.lets arena id).forM (declareLet info arena) := by
  refine declareLocals_related ⟨rfl, ?_⟩ (fun _ => rfl) (.inr ⟨harena, hid⟩)
  rintro x x' y y' rfl rfl
  rfl

/-- Two locals of one name are one local, so a body is accepted exactly if its declarations of one
name have one type and none has the name of a parameter. What they stand for is not asked: variables
and members that are different, but of one type, share their local. Otherwise the first declaration
that clashes is reported. Sharing needs an underscore in the name of a variable. -/
theorem locals_shared_iff_types_agree {info : ModuleInfo} {arena : Arena}
    (harena : arena.WellReferenced) {body : StmtId} (hbody : body < arena.stmts.size) {f : Frame}
    (hlocals : f.locals = {}) :
    (∀ f', declareLocals info arena body f = .ok () f' →
      ∃ ds, Resolves info arena f (Source.lets arena body) ds ∧ f' = f.addAll ds) ∧
    (∀ ds, Resolves info arena f (Source.lets arena body) ds →
      ds.map Declaration.origin =
        (Source.lets arena body).flatMap (Source.letOrigins info arena) ∧
      (declareLocals info arena body f = .ok () (f.addAll ds) ↔
        (∀ d ∈ ds, d.name ∉ f.params.keys) ∧ Declaration.Agree ds) ∧
      (Declaration.Agree ds → ∀ d ∈ ds,
        (f.addAll ds).locals.get? d.name = some ⟨d.name, .localVar, d.ty⟩) ∧
      ((∀ decl ∈ Source.lets arena body, '_' ∉ decl.name.toList) →
        ∀ a ∈ ds, ∀ b ∈ ds, a.name = b.name → a.origin = b.origin)) ∧
    (∀ first rest ds, Source.lets arena body = first ++ rest → Resolves info arena f first ds →
      ¬ ((∀ d ∈ ds, d.name ∉ f.params.keys) ∧ Declaration.Agree ds) →
      ∃ before d after, ds = before ++ d :: after ∧
        (d.name ∈ f.params.keys ∨ ∃ e ∈ before, e.name = d.name ∧ e.ty ≠ d.ty) ∧
        declareLocals info arena body f =
          .error (.duplicateDefinition .localVar d.name) (f.addAll before)) := by
  have hadmits (ds : List Declaration) : f.AdmitsAll ds ↔
      (∀ d ∈ ds, d.name ∉ f.params.keys) ∧ Declaration.Agree ds :=
    f.admitsAll_iff_of_no_locals hlocals
  rw [declareLocals_eq harena hbody]
  refine ⟨fun f' h => ?_, fun ds hds => ⟨hds.origins, ?_, ?_, ?_⟩, ?_⟩
  · obtain ⟨ds, hds, -, heq⟩ := declareLets_ok h
    exact ⟨ds, hds, heq⟩
  · rw [hds.declare_eq, declareAll_ok_iff, hadmits]
    exact and_iff_left rfl
  · exact fun hagree d hd => Frame.get?_addAll_of_agree hlocals hagree hd
  · intro hplain a ha b hb
    have hname {d : Declaration} (hd : d ∈ ds) : '_' ∉ d.origin.variableName.toList := by
      have horigin := hds.origins ▸ List.mem_map_of_mem (f := Declaration.origin) hd
      obtain ⟨decl, hdecl, horigin⟩ := List.mem_flatMap.mp horigin
      rw [Source.variableName_of_letOrigins horigin]
      exact hplain decl hdecl
    exact LocalOrigin.localName_inj (hname ha) (hname hb)
  · intro first rest ds hlets hds hclash
    rw [← hadmits] at hclash
    obtain ⟨before, d, after, heq, -, hd, herror⟩ := declareAll_of_not_admitsAll hclash
    refine ⟨before, d, after, heq, Frame.not_admits_addAll hlocals hd, ?_⟩
    rw [hlets, FrameM.forM_append]
    exact EStateM.bind_of_error (hds.declare_eq.trans herror)

/-- A struct with a member `m`, and two bodies: `let b = S { m: 1 }; let b_m = 5`, and the same with
`let b_m: f32 = 5`. -/
def satchel : Module where
  name := "satchel"
  items := [0, 6, 7]
  arena := {
    exprs := #[.int 1, .struct "S" [⟨"m", 0⟩], .int 5]
    stmts := #[
      .struct ⟨"S", [⟨"m", .i32⟩], false⟩,
      .letting ⟨"b", none, 1, false⟩,
      .letting ⟨"b_m", none, 2, false⟩,
      .letting ⟨"b_m", some .f32, 2, false⟩,
      .block [1, 2],
      .block [1, 3],
      .function ⟨"shared", [], .void, 4, false⟩,
      .function ⟨"rejected", [], .void, 5, false⟩] }

namespace satchel

def info : ModuleInfo where
  name := "satchel"
  structs := ⟨[("S", ⟨"S", 4, false, ⟨[("m", ⟨0, 4, .i32⟩)]⟩⟩)]⟩
  functions := ⟨[
    ("shared", ⟨⟨[], .void⟩, false, 6⟩), ("rejected", ⟨⟨[], .void⟩, false, 7⟩)]⟩
  data := { base := 16, cursor := 24, blocks := [⟨16, [1, 0, 0, 0]⟩, ⟨20, [1, 0, 0, 0]⟩] }
  literals := ⟨[(1, 20)]⟩

theorem wellReferenced : satchel.arena.WellReferenced :=
  (Module.validate_ok_iff.mp (by decide +kernel)).arena

def frame (name : String) : Frame := { name, result := .void }

/-- What is declared, with a type for the last variable. -/
def declarations (ty : Ty) : List Declaration :=
  [⟨.member "b" "m", .i32⟩, ⟨.whole "b", .named "S"⟩, ⟨.whole "b_m", ty⟩]

theorem resolves_shared : Resolves info satchel.arena (frame "shared")
    (Source.lets satchel.arena 4) (declarations .i32) := by
  have hlets : Source.lets satchel.arena 4 =
      [⟨"b", none, 1, false⟩, ⟨"b_m", none, 2, false⟩] := by decide +kernel
  rw [hlets]
  show Resolves _ _ _ _ ([_, _] ++ ([_] ++ []))
  exact .cons (by decide +kernel) (.cons (by decide +kernel) .nil)

theorem resolves_rejected : Resolves info satchel.arena (frame "rejected")
    (Source.lets satchel.arena 5) (declarations .f32) := by
  have hlets : Source.lets satchel.arena 5 =
      [⟨"b", none, 1, false⟩, ⟨"b_m", some .f32, 2, false⟩] := by decide +kernel
  rw [hlets]
  show Resolves _ _ _ _ ([_, _] ++ ([_] ++ []))
  exact .cons (by decide +kernel) (.cons (by decide +kernel) .nil)

end satchel

/-- In the first body the variable `b_m` and the member of `b` are one local. In the second their
types differ, and it is rejected. -/
theorem satchel_shares_a_local :
    declareLocals satchel.info satchel.arena 4 (satchel.frame "shared") =
        .ok () ((satchel.frame "shared").addAll (satchel.declarations .i32)) ∧
      ((satchel.frame "shared").addAll (satchel.declarations .i32)).locals.keys = ["b_m", "b"] ∧
      declareLocals satchel.info satchel.arena 5 (satchel.frame "rejected") ≠
        .ok () ((satchel.frame "rejected").addAll (satchel.declarations .f32)) := by
  have hshared := (locals_shared_iff_types_agree satchel.wellReferenced (by decide) rfl).2.1 _
    satchel.resolves_shared
  have hrejected := (locals_shared_iff_types_agree satchel.wellReferenced (by decide) rfl).2.1 _
    satchel.resolves_rejected
  refine ⟨hshared.2.1.mpr ⟨?_, ?_⟩, by decide +kernel, fun h => ?_⟩
  · decide +kernel
  · unfold Declaration.Agree; decide +kernel
  · have hagree := (hrejected.2.1.mp h).2
    have hty := hagree ⟨.member "b" "m", .i32⟩ (by decide) ⟨.whole "b_m", .f32⟩ (by decide) rfl
    cases hty

end WasmBackend
