import WasmBackend.Proofs.Modules.Parts

/-!
# What lets declare

A local stands for a variable of the source, or for one member of a variable that is a struct
(`LocalOrigin`). Declaring asks one question of a name that is taken: is the type the same? Then the
two share the local, whatever they stand for; otherwise the body is rejected. So declarations are
made exactly if each is admitted after those before it, and what they lead to can be written down
(`declareAll_ok_iff`).

The type of a variable may be read off the locals declared before it, so the declarations of lets
are resolved along the frames that they lead through (`Resolves`). Which lets a body has is left to
the modules that follow.
-/

namespace WasmBackend

open Compiled Lower

/-! ## What a local stands for -/

/-- A variable of the source, or a member of one that is a struct. -/
inductive LocalOrigin where
  | whole (name : String)
  | member (base field : String)
  deriving DecidableEq, Repr

namespace LocalOrigin

/-- The name of the local. -/
def localName : LocalOrigin → String
  | whole name => name
  | member base field => Scope.flattenedName base field

/-- The variable that the local belongs to. -/
def variableName : LocalOrigin → String
  | whole name => name
  | member base _ => base

end LocalOrigin

/-- A local that is asked for, and its type. -/
structure Declaration where
  origin : LocalOrigin
  ty : Ty
  deriving DecidableEq

namespace Declaration

def name (d : Declaration) : String := d.origin.localName

def toVariable (d : Declaration) : Variable := ⟨d.name, .localVar, d.ty⟩

/-- Declarations of one name are of one type. -/
def Agree (ds : List Declaration) : Prop :=
  ∀ a ∈ ds, ∀ b ∈ ds, a.name = b.name → a.ty = b.ty

theorem agree_cons {d : Declaration} {rest : List Declaration} :
    Agree (d :: rest) ↔ (∀ e ∈ rest, d.name = e.name → d.ty = e.ty) ∧ Agree rest := by
  constructor
  · intro h
    exact ⟨fun e he => h d List.mem_cons_self e (List.mem_cons_of_mem _ he),
      fun a ha b hb => h a (List.mem_cons_of_mem _ ha) b (List.mem_cons_of_mem _ hb)⟩
  · rintro ⟨hd, hrest⟩ a ha b hb hname
    rcases List.mem_cons.mp ha with rfl | ha'
    · rcases List.mem_cons.mp hb with rfl | hb'
      · rfl
      · exact hd b hb' hname
    · rcases List.mem_cons.mp hb with rfl | hb'
      · exact (hd a ha' hname.symm).symm
      · exact hrest a ha' b hb' hname

end Declaration

/-! ## Declaring one after the other -/

theorem FrameM.ofCompiled_ok {α : Type} {x : Compiled α} {a : α} {f f' : Frame} :
    FrameM.ofCompiled x f = .ok a f' ↔ x = .ok a ∧ f = f' := by
  cases x <;> simp [FrameM.ofCompiled]

namespace Frame

/-- The name is no parameter's, and if it is a local's, then of this type. -/
def Admits (f : Frame) (d : Declaration) : Prop :=
  d.name ∉ f.params.keys ∧ ∀ v, f.locals.get? d.name = some v → v.ty = d.ty

/-- The frame with the local, unless there is one of that name. -/
def add (f : Frame) (d : Declaration) : Frame :=
  match f.locals.get? d.name with
  | some _ => f
  | none => { f with locals := f.locals.set d.name d.toVariable }

def addAll (f : Frame) (ds : List Declaration) : Frame := ds.foldl add f

/-- Each declaration is admitted after the ones before it. -/
def AdmitsAll : Frame → List Declaration → Prop
  | _, [] => True
  | f, d :: rest => f.Admits d ∧ (f.add d).AdmitsAll rest

@[simp] theorem params_add (f : Frame) (d : Declaration) : (f.add d).params = f.params := by
  unfold add
  split <;> rfl

/-- What is there stays, and what was missing is there now. -/
theorem get?_add (f : Frame) (d : Declaration) (name : String) :
    (f.add d).locals.get? name =
      (f.locals.get? name).or (if d.name = name then some d.toVariable else none) := by
  unfold add
  cases hd : f.locals.get? d.name with
  | some v =>
    by_cases hname : d.name = name
    · rw [← hname, hd]
      rfl
    · simp [hname]
  | none =>
    show (f.locals.set d.name d.toVariable).get? name = _
    rw [Table.get?_set]
    by_cases hname : d.name = name
    · rw [← hname, hd]
      simp
    · simp [hname]

/-- After a declaration, a further one has to agree with it as well. -/
theorem admits_add {f : Frame} {d e : Declaration} (hd : f.Admits d) :
    (f.add d).Admits e ↔ f.Admits e ∧ (d.name = e.name → d.ty = e.ty) := by
  unfold Admits
  rw [params_add, and_assoc]
  refine and_congr_right fun _ => ?_
  rw [get?_add]
  cases he : f.locals.get? e.name with
  | some v =>
    simp only [Option.some_or, Option.some.injEq, forall_eq']
    refine ⟨fun hty => ⟨hty, fun hname => ?_⟩, fun h => h.1⟩
    rw [← hd.2 v (hname ▸ he), hty]
  | none =>
    by_cases hname : d.name = e.name <;> simp [hname, Declaration.toVariable]

/-- Declarations are admitted if each is and if any two of one name have one type. -/
theorem admitsAll_iff {f : Frame} {ds : List Declaration} :
    f.AdmitsAll ds ↔ (∀ d ∈ ds, f.Admits d) ∧ Declaration.Agree ds := by
  induction ds generalizing f with
  | nil => simp [AdmitsAll, Declaration.Agree]
  | cons d rest ih =>
    rw [AdmitsAll, ih, Declaration.agree_cons, List.forall_mem_cons, and_assoc]
    refine and_congr_right fun hd => ?_
    simp only [admits_add hd, imp_and, forall_and]
    exact and_assoc

theorem get?_addAll (f : Frame) (ds : List Declaration) (name : String) :
    (f.addAll ds).locals.get? name =
      (f.locals.get? name).or
        ((ds.find? fun d => d.name = name).map Declaration.toVariable) := by
  induction ds generalizing f with
  | nil => simp [addAll]
  | cons d rest ih =>
    show ((f.add d).addAll rest).locals.get? name = _
    rw [ih, get?_add, Option.or_assoc]
    by_cases hname : d.name = name <;> simp [hname]

theorem find?_of_agree {ds : List Declaration} (h : Declaration.Agree ds) {d : Declaration}
    (hd : d ∈ ds) :
    (ds.find? fun e => e.name = d.name).map Declaration.toVariable = some d.toVariable := by
  cases hfind : ds.find? fun e => e.name = d.name with
  | none =>
    have hmissing := List.find?_eq_none.mp hfind d hd
    simp at hmissing
  | some e =>
    have hname : e.name = d.name := by simpa using List.find?_some hfind
    have hty := h e (List.mem_of_find?_eq_some hfind) d hd hname
    simp [Declaration.toVariable, hname, hty]

/-- Every declaration that was admitted has its local, and of its type. -/
theorem get?_addAll_of_mem {f : Frame} {ds : List Declaration} (h : f.AdmitsAll ds)
    {d : Declaration} (hd : d ∈ ds) :
    ∃ v, (f.addAll ds).locals.get? d.name = some v ∧ v.ty = d.ty := by
  obtain ⟨hadmits, hagree⟩ := admitsAll_iff.mp h
  rw [get?_addAll, find?_of_agree hagree hd]
  cases hlocal : f.locals.get? d.name with
  | some v => exact ⟨v, rfl, (hadmits d hd).2 v hlocal⟩
  | none => exact ⟨d.toVariable, rfl, rfl⟩

/-- If there were no locals before, it is the one that was asked for. -/
theorem get?_addAll_of_agree {f : Frame} {ds : List Declaration} (hlocals : f.locals = {})
    (h : Declaration.Agree ds) {d : Declaration} (hd : d ∈ ds) :
    (f.addAll ds).locals.get? d.name = some d.toVariable := by
  rw [get?_addAll, hlocals, find?_of_agree h hd]
  rfl

/-- Only the locals change. -/
theorem addAll_eq (f : Frame) (ds : List Declaration) :
    f.addAll ds = { f with locals := (f.addAll ds).locals } := by
  induction ds generalizing f with
  | nil => rfl
  | cons d rest ih =>
    have hadd : f.add d = { f with locals := (f.add d).locals } := by
      unfold add
      split <;> rfl
    exact (ih (f.add d)).trans
      (congrArg (fun g : Frame => { g with locals := ((f.add d).addAll rest).locals }) hadd)

@[simp] theorem params_addAll (f : Frame) (ds : List Declaration) :
    (f.addAll ds).params = f.params := by rw [addAll_eq]

theorem mem_addAll {f : Frame} {ds : List Declaration} {name : String} :
    name ∈ (f.addAll ds).locals.keys ↔ name ∈ f.locals.keys ∨ name ∈ ds.map Declaration.name := by
  have hkeys (g : Frame) : name ∈ g.locals.keys ↔ g.locals.get? name ≠ none := by
    rw [Ne, Table.get?_eq_none_iff, not_not]
  rw [hkeys, hkeys, get?_addAll]
  cases f.locals.get? name <;> simp

end Frame

/-- Declares all of them, in order. -/
def declareAll (ds : List Declaration) : FrameM Unit := ds.forM fun d => declare d.name d.ty

section Declaring

variable {f : Frame} {d : Declaration} {ds es : List Declaration}

theorem declare_of_admits (h : f.Admits d) : declare d.name d.ty f = .ok () (f.add d) := by
  unfold declare Frame.add
  rw [if_neg (mt Table.contains_iff.mp h.1)]
  cases hlocal : f.locals.get? d.name with
  | none => rfl
  | some v => simp only [h.2 v hlocal, if_true]

theorem declare_of_not_admits (h : ¬ f.Admits d) :
    declare d.name d.ty f = .error (.duplicateDefinition .localVar d.name) f := by
  unfold declare
  split
  · rfl
  · next hparam =>
    cases hlocal : f.locals.get? d.name with
    | none => exact absurd ⟨mt Table.contains_iff.mpr hparam, by simp [hlocal]⟩ h
    | some v =>
      have hty : v.ty ≠ d.ty := by
        intro hty
        refine h ⟨mt Table.contains_iff.mpr hparam, fun v' hv' => ?_⟩
        cases hlocal.symm.trans hv'
        exact hty
      simp only [if_neg hty]

theorem declareAll_append (ds es : List Declaration) :
    declareAll (ds ++ es) = (declareAll ds >>= fun _ => declareAll es) := List.forM_append ..

theorem declareAll_singleton (d : Declaration) : declareAll [d] = declare d.name d.ty :=
  bind_pure_unit

theorem declareAll_map {α : Type} (g : α → Declaration) (l : List α) :
    declareAll (l.map g) = l.forM fun a => declare (g a).name (g a).ty := by
  induction l with
  | nil => rfl
  | cons a rest ih =>
    show (declare (g a).name (g a).ty >>= fun _ => declareAll (rest.map g)) = _
    rw [ih]
    rfl

theorem declareAll_of_admitsAll (h : f.AdmitsAll ds) : declareAll ds f = .ok () (f.addAll ds) := by
  induction ds generalizing f with
  | nil => rfl
  | cons d rest ih =>
    show (declare d.name d.ty >>= fun _ => declareAll rest) f = _
    rw [EStateM.bind_of_ok (declare_of_admits h.1)]
    exact ih h.2

/-- The first declaration that is not admitted is reported. -/
theorem declareAll_of_not_admitsAll (h : ¬ f.AdmitsAll ds) :
    ∃ before d after, ds = before ++ d :: after ∧ f.AdmitsAll before ∧
      ¬ (f.addAll before).Admits d ∧
      declareAll ds f = .error (.duplicateDefinition .localVar d.name) (f.addAll before) := by
  induction ds generalizing f with
  | nil => exact absurd trivial h
  | cons d rest ih =>
    by_cases hd : f.Admits d
    · obtain ⟨before, e, after, rfl, hbefore, he, herror⟩ := ih fun hrest => h ⟨hd, hrest⟩
      refine ⟨d :: before, e, after, rfl, ⟨hd, hbefore⟩, he, ?_⟩
      show (declare d.name d.ty >>= fun _ => declareAll _) f = _
      rw [EStateM.bind_of_ok (declare_of_admits hd)]
      exact herror
    · refine ⟨[], d, rest, rfl, trivial, hd, ?_⟩
      exact EStateM.bind_of_error (declare_of_not_admits hd)

theorem declareAll_ok_iff {f' : Frame} :
    declareAll ds f = .ok () f' ↔ f.AdmitsAll ds ∧ f' = f.addAll ds := by
  by_cases h : f.AdmitsAll ds
  · rw [declareAll_of_admitsAll h]
    simp [h, eq_comm]
  · obtain ⟨before, d, after, -, -, -, herror⟩ := declareAll_of_not_admitsAll h
    rw [herror]
    simp [h]

end Declaring

/-! ## The declarations of lets -/

namespace Source

/-- What the locals of a `let` stand for, members first. -/
def letOrigins (info : ModuleInfo) (arena : Arena) (decl : LetDecl) : List LocalOrigin :=
  match arena.expr? decl.init with
  | some (.struct structName _) =>
    match info.structLayout structName with
    | .ok layout => layout.members.keys.map (.member decl.name) ++ [.whole decl.name]
    | .error _ => [.whole decl.name]
  | _ => [.whole decl.name]

/-- A `let` makes visible what it declares. -/
theorem mem_letNames {info : ModuleInfo} {arena : Arena} {decl : LetDecl} {name : String} :
    name ∈ letNames info arena decl ↔
      name ∈ (letOrigins info arena decl).map LocalOrigin.localName := by
  unfold letNames letOrigins
  cases arena.expr? decl.init with
  | none => rfl
  | some e =>
    cases e with
    | struct structName fields =>
      dsimp only
      cases info.structLayout structName with
      | error _ => rfl
      | ok layout => simp [LocalOrigin.localName, or_comm]
    | _ => rfl

end Source

/-- The type of a `let` that is no struct literal: the one it states, or the one of its value. -/
def letType (sc : Scope) (decl : LetDecl) : Compiled Ty :=
  match decl.ty with
  | some ty => .ok ty
  | none => impliedType sc decl

/-- The declarations that a `let` makes in a frame, members first. -/
def letDeclarations (info : ModuleInfo) (arena : Arena) (f : Frame) (decl : LetDecl) :
    Compiled (List Declaration) := do
  let sc : Scope := ⟨info, arena, some f⟩
  match ← sc.expr decl.init with
  | .struct name _ =>
    let layout ← info.structLayout name
    return layout.members.entries.map (fun e => ⟨.member decl.name e.1, e.2.ty⟩) ++
      [⟨.whole decl.name, decl.ty.getD (.named name)⟩]
  | _ => return [⟨.whole decl.name, ← letType sc decl⟩]

section Lets

variable {info : ModuleInfo} {arena : Arena} {f f' : Frame} {decl : LetDecl}
  {ds : List Declaration}

theorem letDeclarations_origins (h : letDeclarations info arena f decl = .ok ds) :
    ds.map Declaration.origin = Source.letOrigins info arena decl := by
  simp only [letDeclarations, bind_ok] at h
  obtain ⟨e, he, h⟩ := h
  have hexpr : arena.expr? decl.init = some e := Scope.expr_eq_ok.mp he
  unfold Source.letOrigins
  rw [hexpr]
  cases e with
  | struct name fields =>
    simp only [bind_ok, pure_ok] at h
    obtain ⟨layout, hlayout, rfl⟩ := h
    simp [hlayout, Table.keys]
  | _ =>
    simp only [bind_ok, pure_ok] at h
    obtain ⟨ty, -, rfl⟩ := h
    rfl

/-- Declaring a `let` is finding its declarations and making them. -/
theorem declareLet_eq (info : ModuleInfo) (arena : Arena) (decl : LetDecl) (f : Frame) :
    declareLet info arena decl f =
      (FrameM.ofCompiled (letDeclarations info arena f decl) >>= declareAll) f := by
  unfold declareLet letDeclarations
  rw [EStateM.bind_of_ok (show (get : FrameM Frame) f = .ok f f from rfl)]
  dsimp only
  cases Scope.expr ⟨info, arena, some f⟩ decl.init with
  | error e => rfl
  | ok e =>
    rw [EStateM.bind_of_ok (show FrameM.ofCompiled (.ok e) f = .ok e f from rfl), ok_bind]
    cases e with
    | struct name fields =>
      dsimp only
      cases info.structLayout name with
      | error e => rfl
      | ok layout =>
        show (layout.members.entries.forM _ >>= fun _ => declare decl.name _) f = declareAll _ f
        rw [declareAll_append, declareAll_singleton, declareAll_map]
        rfl
    | _ =>
      show (FrameM.ofCompiled (letType ⟨info, arena, some f⟩ decl) >>= declare decl.name) f = _
      cases letType ⟨info, arena, some f⟩ decl with
      | error e => rfl
      | ok ty =>
        show declare decl.name ty f = declareAll [⟨.whole decl.name, ty⟩] f
        rw [declareAll_singleton]
        rfl

theorem declareLet_ok (h : declareLet info arena decl f = .ok () f') :
    ∃ ds, letDeclarations info arena f decl = .ok ds ∧ f.AdmitsAll ds ∧ f' = f.addAll ds := by
  rw [declareLet_eq] at h
  obtain ⟨ds, _, hfound, hdeclared⟩ := EStateM.bind_ok.mp h
  obtain ⟨hds, rfl⟩ := FrameM.ofCompiled_ok.mp hfound
  exact ⟨ds, hds, declareAll_ok_iff.mp hdeclared⟩

/-- The declarations of lets, each found in the frame that those before it lead to. -/
inductive Resolves (info : ModuleInfo) (arena : Arena) :
    Frame → List LetDecl → List Declaration → Prop
  | nil {f : Frame} : Resolves info arena f [] []
  | cons {f : Frame} {decl : LetDecl} {rest : List LetDecl} {ds es : List Declaration}
      (hdecl : letDeclarations info arena f decl = .ok ds)
      (hrest : Resolves info arena (f.addAll ds) rest es) :
      Resolves info arena f (decl :: rest) (ds ++ es)

theorem Resolves.origins {lets : List LetDecl} (h : Resolves info arena f lets ds) :
    ds.map Declaration.origin = lets.flatMap (Source.letOrigins info arena) := by
  induction h with
  | nil => rfl
  | cons hdecl _ ih => rw [List.map_append, letDeclarations_origins hdecl, ih, List.flatMap_cons]

theorem Resolves.mem_names {lets : List LetDecl} (h : Resolves info arena f lets ds)
    (name : String) :
    name ∈ ds.map Declaration.name ↔ name ∈ lets.flatMap (Source.letNames info arena) := by
  have hnames : ds.map Declaration.name =
      lets.flatMap fun decl => (Source.letOrigins info arena decl).map LocalOrigin.localName := by
    rw [← List.map_flatMap, ← h.origins, List.map_map]
    rfl
  simp only [hnames, List.mem_flatMap, Source.mem_letNames]

/-- Once the declarations are found, declaring lets is making them, whether that succeeds or not. -/
theorem Resolves.declare_eq {lets : List LetDecl} (h : Resolves info arena f lets ds) :
    lets.forM (declareLet info arena) f = declareAll ds f := by
  induction h with
  | nil => rfl
  | @cons f decl rest ds es hdecl _ ih =>
    have hlet : declareLet info arena decl f = declareAll ds f := by
      rw [declareLet_eq, hdecl]
      rfl
    show (declareLet info arena decl >>= fun _ => rest.forM (declareLet info arena)) f = _
    rw [declareAll_append]
    by_cases hadmits : f.AdmitsAll ds
    · have hds := declareAll_of_admitsAll hadmits
      rw [EStateM.bind_of_ok (hlet.trans hds), EStateM.bind_of_ok hds, ih]
    · obtain ⟨before, d, after, -, -, -, hds⟩ := declareAll_of_not_admitsAll hadmits
      rw [EStateM.bind_of_error (hlet.trans hds), EStateM.bind_of_error hds]

/-- Lets that were declared have declarations, and those have been made. -/
theorem declareLets_ok {lets : List LetDecl} (h : lets.forM (declareLet info arena) f = .ok () f') :
    ∃ ds, Resolves info arena f lets ds ∧ f.AdmitsAll ds ∧ f' = f.addAll ds := by
  obtain ⟨ds, hds⟩ : ∃ ds, Resolves info arena f lets ds := by
    induction lets generalizing f with
    | nil => exact ⟨[], .nil⟩
    | cons decl rest ih =>
      obtain ⟨⟨⟩, g, hdecl, hrest⟩ := EStateM.bind_ok.mp h
      obtain ⟨ds, hds, -, rfl⟩ := declareLet_ok hdecl
      obtain ⟨es, hes⟩ := ih hrest
      exact ⟨ds ++ es, .cons hds hes⟩
  exact ⟨ds, hds, declareAll_ok_iff.mp (hds.declare_eq.symm.trans h)⟩

end Lets

end WasmBackend
