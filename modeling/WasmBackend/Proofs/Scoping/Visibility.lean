import WasmBackend.Proofs.Control.Pieces
import WasmBackend.Proofs.Integers.Lowering
import WasmBackend.Proofs.Scoping.Locals

/-!
# Both walks over a body see the same scopes

The first walk over a body declares a local for every `let` and reads the type of an unannotated one
off its initialiser, among the locals declared by then. The second walk lowers the body with all
locals declared and hidden, and uncovers them `let` by `let`. A name has to mean the same in both,
or a local gets the type of another variable.

It does: where the first walk stands after some lets, the second sees exactly what the first has
declared (`visible_of_declared`). So both give an initialiser the same lane (`Scope.laneOf_congr`),
and it is stored in its local as it is, without a conversion (`asLane_eq_lower`).

The second walk is read off the code that comes out, piece by piece (`Body.pieces`). Only lets are
compared; that other pieces are lowered in the same scopes is part of `Lowers.emits`.
-/

namespace WasmBackend

open Compiled Lower

/-! ## What is visible -/

theorem Frame.pending_revealAll (f : Frame) (names : List String) :
    (f.revealAll names).pending = f.pending.filter fun name => !names.contains name := by
  induction names generalizing f with
  | nil => exact (List.filter_eq_self.mpr fun _ _ => rfl).symm
  | cons first rest ih =>
    show ((f.reveal first).revealAll rest).pending = _
    rw [ih, Frame.reveal, List.filter_filter]
    refine List.filter_congr fun name _ => ?_
    by_cases h : name = first <;> simp [h]

@[simp] theorem Frame.revealAll_locals (f : Frame) (names : List String) :
    (f.revealAll names).locals = f.locals := by rw [f.revealAll_eq]

@[simp] theorem Frame.revealAll_params (f : Frame) (names : List String) :
    (f.revealAll names).params = f.params := by rw [f.revealAll_eq]

/-- Of locals that were hidden, those are visible that have been uncovered. -/
theorem Frame.visibleLocal?_hidden (f : Frame) (names : List String) (name : String) :
    (f.hideLocals.revealAll names).visibleLocal? name =
      if name ∈ names then f.locals.get? name else none := by
  unfold visibleLocal?
  rw [pending_revealAll, revealAll_locals]
  by_cases hname : name ∈ names
  · simp [hname, hideLocals]
  · by_cases hkey : name ∈ f.locals.keys
    · simp [hname, hkey, hideLocals]
    · simp [hname, hkey, hideLocals, Table.get?_eq_none_iff.mpr hkey]

/-! ## What is declared -/

/-- The second frame has what the first has declared, and perhaps more. -/
structure Frame.Keeps (f f' : Frame) : Prop where
  params : f'.params = f.params
  pending : f'.pending = f.pending
  locals : ∀ name v, f.locals.get? name = some v → f'.locals.get? name = some v

theorem Frame.Keeps.trans {f g h : Frame} (hfg : f.Keeps g) (hgh : g.Keeps h) : f.Keeps h where
  params := hgh.params.trans hfg.params
  pending := hgh.pending.trans hfg.pending
  locals := fun name v hv => hgh.locals name v (hfg.locals name v hv)

theorem Frame.keeps_addAll (f : Frame) (ds : List Declaration) : f.Keeps (f.addAll ds) where
  params := f.params_addAll ds
  pending := by rw [f.addAll_eq]
  locals := by
    intro name v hv
    rw [get?_addAll, hv]
    rfl

namespace Lower

variable {info : ModuleInfo} {arena : Arena}

theorem declareLet_keeps {decl : LetDecl} {f f' : Frame}
    (h : declareLet info arena decl f = .ok () f') : f.Keeps f' := by
  obtain ⟨ds, -, -, rfl⟩ := declareLet_ok h
  exact f.keeps_addAll ds

theorem declareLets_keep {lets : List LetDecl} {f f' : Frame}
    (h : lets.forM (declareLet info arena) f = .ok () f') : f.Keeps f' := by
  obtain ⟨ds, -, -, rfl⟩ := declareLets_ok h
  exact f.keeps_addAll ds

theorem declareLet_bound {decl : LetDecl} {f f' : Frame}
    (h : declareLet info arena decl f = .ok () f') : ∃ x, f'.locals.get? decl.name = some x := by
  obtain ⟨ds, hds, hadmits, rfl⟩ := declareLet_ok h
  have hwhole : .whole decl.name ∈ ds.map Declaration.origin := by
    rw [letDeclarations_origins hds]
    unfold Source.letOrigins
    split
    · split <;> simp
    · simp
  obtain ⟨d, hd, horigin⟩ := List.mem_map.mp hwhole
  obtain ⟨x, hx, -⟩ := Frame.get?_addAll_of_mem hadmits hd
  rw [Declaration.name, horigin] at hx
  exact ⟨x, hx⟩

/-- The type that an unannotated `let` gets has the lane of the initialiser. -/
theorem typeOfLane_ok {name : String} {lane : Lane} {ty : Ty} (h : typeOfLane name lane = .ok ty) :
    ty.lane = lane := by
  cases lane <;> cases h <;> rfl

/-- An unannotated `let` whose initialiser is no literal in data is declared in the lane of its
initialiser. -/
theorem declareLet_lane {decl : LetDecl} {e : Expr} {f f' : Frame}
    (h : declareLet info arena decl f = .ok () f') (hty : decl.ty = none)
    (he : arena.expr? decl.init = some e) (hdata : e.isDataLiteral = false) :
    ∃ v, f'.locals.get? decl.name = some v ∧
      Scope.laneOf ⟨info, arena, some f⟩ decl.init = .ok v.ty.lane := by
  obtain ⟨ds, hds, hadmits, rfl⟩ := declareLet_ok h
  have hexpr : Scope.expr ⟨info, arena, some f⟩ decl.init = .ok e := Scope.expr_eq_ok.mpr he
  cases e with
  | str _ | array _ _ | struct _ _ => exact absurd hdata (by simp [Expr.isDataLiteral])
  | _ =>
    simp only [letDeclarations, letType, hty, impliedType, hexpr, ok_bind, bind_ok, pure_ok] at hds
    obtain ⟨ty, ⟨lane, hlane, hof⟩, rfl⟩ := hds
    obtain ⟨v, hv, hvty⟩ := Frame.get?_addAll_of_mem hadmits (List.mem_singleton_self _)
    rw [← typeOfLane_ok hof] at hlane
    exact ⟨v, hv, hvty ▸ hlane⟩

end Lower

/-! ## Lanes -/

/-- The lane of an expression depends on a frame only through what names mean there. -/
theorem Scope.laneOf_congr {info : ModuleInfo} {arena : Arena} {f g : Frame}
    (hparams : f.params = g.params) (hvisible : ∀ name, f.visibleLocal? name = g.visibleLocal? name)
    (id : ExprId) :
    laneOf ⟨info, arena, some f⟩ id = laneOf ⟨info, arena, some g⟩ id := by
  have hlookup : lookup ⟨info, arena, some f⟩ = lookup ⟨info, arena, some g⟩ := by
    funext name
    simp only [lookup, lookupLocal?, hvisible, hparams]
    rfl
  have helement : elementType ⟨info, arena, some f⟩ = elementType ⟨info, arena, some g⟩ := by
    funext base
    simp only [elementType, hlookup]
  have hmember : memberOf ⟨info, arena, some f⟩ = memberOf ⟨info, arena, some g⟩ := by
    funext base name
    simp only [memberOf, hlookup]
    rfl
  have hflattened : flattenedMember? ⟨info, arena, some f⟩ =
      flattenedMember? ⟨info, arena, some g⟩ := by
    funext base name
    simp only [flattenedMember?, flattened?, Option.bind_some, hvisible]
  have hscalar : elementScalar ⟨info, arena, some f⟩ = elementScalar ⟨info, arena, some g⟩ := by
    funext base
    simp only [elementScalar, helement]
    rfl
  have hinfer : infer ⟨info, arena, some f⟩ = infer ⟨info, arena, some g⟩ := by
    have hstep : inferStep ⟨info, arena, some f⟩ = inferStep ⟨info, arena, some g⟩ := by
      funext id sub
      simp only [inferStep, hlookup, helement]
      rfl
    rw [infer, infer, hstep]
  have hstep : laneOfStep ⟨info, arena, some f⟩ = laneOfStep ⟨info, arena, some g⟩ := by
    funext id sub
    simp only [laneOfStep, hlookup, hscalar, hmember, hflattened, hinfer]
    rfl
  rw [laneOf, laneOf, hstep]

/-- The code of a `let` in a lane of its own: the initialiser's, and a store. -/
theorem letCode_own {info : ModuleInfo} {arena : Arena} {f : Frame} {decl : LetDecl} {e : Expr}
    {x : Variable} {code : Code} (h : leafCode info arena f (.binding decl) = .ok code)
    (he : arena.expr? decl.init = some e) (hdata : e.isDataLiteral = false)
    (hx : f.locals.get? decl.name = some x)
    (hlane : Scope.laneOf ⟨info, arena, some f⟩ decl.init = .ok x.ty.lane) :
    ∃ value, lower ⟨info, arena, some f⟩ decl.init = .ok value ∧
      code = value ++ .one (.localSet decl.name) := by
  obtain ⟨⟨_, names⟩, hcode, rfl⟩ := map_ok.mp h
  unfold letCode at hcode
  rw [Scope.expr_eq_ok.mpr he, ok_bind] at hcode
  cases e with
  | struct _ _ => exact absurd hdata (by simp [Expr.isDataLiteral])
  | _ =>
    simp only [hx, asLane_eq_lower hlane rfl, bind_ok, pure_ok] at hcode
    obtain ⟨value, hvalue, hpair⟩ := hcode
    cases hpair
    exact ⟨value, hvalue, rfl⟩

/-! ## Both walks -/

/-- The code of a `let` in a frame agrees with the frame in which the `let` was declared: the same
locals are visible, the `let` has its local, and if its type was read off the initialiser, that has
the lane of the local and is stored in it as it is. -/
structure SeesDeclared (info : ModuleInfo) (arena : Arena) (declared seen : Frame) (decl : LetDecl)
    (code : Code) : Prop where
  visible : ∀ name, seen.visibleLocal? name = declared.locals.get? name
  bound : ∃ x, seen.locals.get? decl.name = some x ∧
    (decl.ty = none → ∀ e, arena.expr? decl.init = some e → e.isDataLiteral = false →
      Scope.laneOf ⟨info, arena, some seen⟩ decl.init = .ok x.ty.lane ∧
      ∃ value, lower ⟨info, arena, some seen⟩ decl.init = .ok value ∧
        code = value ++ .one (.localSet decl.name))

section Walks

variable {info : ModuleInfo} {arena : Arena} {f g h declared : Frame} {before : List LetDecl}

/-- Where some lets have been declared, lowering sees what they declared. -/
theorem visible_of_declared (hlocals : f.locals.keys = [])
    (hbefore : before.forM (declareLet info arena) f = .ok () g) (hkeeps : g.Keeps declared)
    (name : String) :
    (declared.hideLocals.revealAll
      (before.flatMap (Source.letNames info arena))).visibleLocal? name =
      g.locals.get? name := by
  rw [Frame.visibleLocal?_hidden]
  have hkeys : name ∈ g.locals.keys ↔ name ∈ before.flatMap (Source.letNames info arena) := by
    obtain ⟨ds, hds, -, rfl⟩ := declareLets_ok hbefore
    rw [Frame.mem_addAll, hds.mem_names, hlocals]
    simp
  by_cases hname : name ∈ before.flatMap (Source.letNames info arena)
  · rw [if_pos hname]
    cases hget : g.locals.get? name with
    | none => exact absurd (hkeys.mpr hname) (Table.get?_eq_none_iff.mp hget)
    | some x => exact hkeeps.locals name x hget
  · rw [if_neg hname]
    exact (Table.get?_eq_none_iff.mpr (mt hkeys.mp hname)).symm

/-- A `let` that was declared after some others, and is lowered after these have been uncovered. -/
theorem seesDeclared_of_declared {decl : LetDecl} {seen : Frame} {code : Code}
    (hpending : f.pending = []) (hlocals : f.locals.keys = [])
    (hbefore : before.forM (declareLet info arena) f = .ok () g)
    (hlet : declareLet info arena decl g = .ok () h) (hkeeps : h.Keeps declared)
    (hseen : seen = declared.hideLocals.revealAll (before.flatMap (Source.letNames info arena)))
    (hcode : leafCode info arena seen (.binding decl) = .ok code) :
    SeesDeclared info arena g seen decl code := by
  have hgKeeps : g.Keeps declared := (declareLet_keeps hlet).trans hkeeps
  have hsame : seen.locals = declared.locals := hseen ▸ Frame.revealAll_locals _ _
  have hparams : seen.params = g.params :=
    (hseen ▸ Frame.revealAll_params _ _ : seen.params = declared.params).trans hgKeeps.params
  have hvisible : ∀ name, seen.visibleLocal? name = g.locals.get? name := by
    intro name
    rw [← visible_of_declared hlocals hbefore hgKeeps name, hseen]
  refine ⟨hvisible, ?_⟩
  obtain ⟨x, hx⟩ := declareLet_bound hlet
  have hbound : seen.locals.get? decl.name = some x := hsame ▸ hkeeps.locals _ x hx
  refine ⟨x, hbound, fun hty e he hdata => ?_⟩
  obtain ⟨x', hx', hlane⟩ := declareLet_lane hlet hty he hdata
  obtain rfl : x = x' := Option.some.inj (hx.symm.trans hx')
  -- While the lets are being declared, nothing is pending.
  have hgPending : g.pending = [] := (declareLets_keep hbefore).pending.trans hpending
  have hsees : ∀ name, seen.visibleLocal? name = g.visibleLocal? name := by
    intro name
    rw [hvisible]
    simp [Frame.visibleLocal?, hgPending]
  have hlane' : Scope.laneOf ⟨info, arena, some seen⟩ decl.init = .ok x.ty.lane :=
    (Scope.laneOf_congr hparams hsees decl.init).trans hlane
  exact ⟨hlane', letCode_own hcode he hdata hbound hlane'⟩

end Walks

/-- The walk that declares the locals of a function declares its lets in the order of the text. The
code of its body is, piece by piece, that of its leaves in the same order. At each of them just the
lets before it are visible, and of a `let` the code agrees with the frame in which it was declared:
after the same lets. -/
theorem lowering_sees_declared_scopes {info : ModuleInfo} {arena : Arena} {name : String}
    {decl : FunctionDecl} {f declared : Frame} {labels : LabelSupply} {code : Body}
    {s' : LowerState} (hframe : functionFrame name decl = .ok f)
    (hdeclare : declareLocals info arena decl.body f = .ok () declared)
    (hlower : lowerBody info arena decl.body ⟨declared, labels⟩ = .ok code s') :
    (Source.lets arena decl.body).forM (declareLet info arena) f = .ok () declared ∧
    code.pieces.length = (Source.leaves arena decl.body).length ∧
    ∀ i leaf piece, (Source.leaves arena decl.body)[i]? = some leaf →
      code.pieces[i]? = some piece → piece.1 = leaf.purpose ∧
      ∃ seen, seen = declared.hideLocals.revealAll
          (((Source.leaves arena decl.body).take i).flatMap (Source.leafNames info arena)) ∧
        leafCode info arena seen leaf = .ok piece.2 ∧
        ∀ d, leaf = .binding d →
          ∃ g, (((Source.leaves arena decl.body).take i).filterMap Leaf.decl?).forM
              (declareLet info arena) f = .ok () g ∧
            SeesDeclared info arena g seen d piece.2 := by
  have hlets := declareLocals_declaresLets decl.body f declared hdeclare
  obtain ⟨body, hbody, hclosed⟩ := lowerBody_ok hlower
  have hpieces : code.pieces = body.pieces := by
    rw [hclosed]
    split
    · exact body.pieces_close
    · rfl
  have hemits := hbody.emits
  rw [List.flatMap_singleton, ← hpieces] at hemits
  refine ⟨hlets, hemits.length_eq, ?_⟩
  intro i leaf piece hleaf hpiece
  obtain ⟨hpurpose, hcode⟩ := hemits.getElem? hleaf hpiece
  refine ⟨hpurpose, _, rfl, hcode, ?_⟩
  rintro d rfl
  -- The declaring walk, cut at this `let`.
  have hcut : Source.leaves arena decl.body = (Source.leaves arena decl.body).take i ++
      .binding d :: (Source.leaves arena decl.body).drop (i + 1) := by
    obtain ⟨hlt, hget⟩ := List.getElem?_eq_some_iff.mp hleaf
    rw [← hget, ← List.drop_eq_getElem_cons hlt, List.take_append_drop]
  rw [Source.lets, hcut, List.filterMap_append] at hlets
  obtain ⟨g, hg, hrest⟩ := FrameM.forM_append_ok.mp hlets
  obtain ⟨_, h, hlet, hafter⟩ := EStateM.bind_ok.mp hrest
  refine ⟨g, hg, ?_⟩
  have hstart := (functionFrame_eq hframe).1
  refine seesDeclared_of_declared (hstart ▸ rfl) (hstart ▸ rfl) hg hlet (declareLets_keep hafter) ?_
    hcode
  rw [Source.flatMap_leafNames]

/-! ### A name that changes its meaning -/

/-- `let y = x; if (p) { let x = 1.5; } let z = x; let b = S { m: 1.5 }; let w = b.m;`, where `x` is
an integer outside the function. -/
def shadowing : Arena where
  exprs := #[.ident "x", .ident "p", .float ⟨0x3ff8000000000000⟩, .struct "S" [⟨"m", 2⟩],
    .ident "b", .member 4 "m", .int 7]
  stmts := #[.letting ⟨"y", none, 0, false⟩, .letting ⟨"x", none, 2, false⟩, .cond 1 1 none,
    .letting ⟨"z", none, 0, false⟩, .letting ⟨"b", none, 3, false⟩, .letting ⟨"w", none, 5, false⟩,
    .block [0, 2, 3, 4, 5]]

def shadowingInfo : ModuleInfo where
  name := "m"
  structs := ⟨[("S", ⟨"S", 4, false, ⟨[("m", ⟨0, 4, .f32⟩)]⟩⟩)]⟩
  globals := ⟨[("x", ⟨.i32, .register, false, 6⟩)]⟩
  data := .startingAt 16
  literals := ⟨[(3, 16)]⟩

/-- The frame of the function before and after its lets are declared. -/
def shadowingFrame (locals : List (String × Ty)) : Frame where
  name := "f"
  result := .void
  params := ⟨[("p", ⟨"p", .param, .i32⟩)]⟩
  locals := ⟨locals.map fun (name, ty) => (name, ⟨name, .localVar, ty⟩)⟩

def shadowingDecl : FunctionDecl := ⟨"f", [⟨"p", .i32⟩], .void, 6, false⟩

/-- `y` is initialised with the integer outside, and `z` with the float in the branch before it. The
condition of the branch is the piece after `y`. -/
theorem shadowing_sees_declared :
    ∃ declared code s' y z seenY seenZ,
      functionFrame "f" shadowingDecl = .ok (shadowingFrame []) ∧
      declareLocals shadowingInfo shadowing 6 (shadowingFrame []) = .ok () declared ∧
      lowerBody shadowingInfo shadowing 6 ⟨declared, {}⟩ = .ok code s' ∧
      code.pieces[0]? = some (.effect, y) ∧ code.pieces[3]? = some (.effect, z) ∧
      leafCode shadowingInfo shadowing seenY (.binding ⟨"y", none, 0, false⟩) = .ok y ∧
      seenY.visibleLocal? "x" = none ∧
      leafCode shadowingInfo shadowing seenZ (.binding ⟨"z", none, 0, false⟩) = .ok z ∧
      seenZ.visibleLocal? "x" = some ⟨"x", .localVar, .f32⟩ := by
  have hframe : functionFrame "f" shadowingDecl = .ok (shadowingFrame []) := rfl
  have hdeclare : declareLocals shadowingInfo shadowing 6 (shadowingFrame []) = .ok ()
      (shadowingFrame [("y", .i32), ("x", .f32), ("z", .f32), ("b_m", .f32), ("b", .named "S"),
        ("w", .f32)]) :=
    FrameM.result?_eq_some.mp (by decide +kernel)
  obtain ⟨code, s', hlower⟩ := LowerM.exists_ok (x := lowerBody shadowingInfo shadowing 6)
    (s := ⟨shadowingFrame [("y", .i32), ("x", .f32), ("z", .f32), ("b_m", .f32),
      ("b", .named "S"), ("w", .f32)], {}⟩) (by decide +kernel)
  obtain ⟨-, hlength, hall⟩ := lowering_sees_declared_scopes hframe hdeclare hlower
  have hsize : (Source.leaves shadowing shadowingDecl.body).length = 6 := by decide +kernel
  obtain ⟨⟨_, y⟩, hy⟩ : ∃ p, code.pieces[0]? = some p := ⟨_, List.getElem?_eq_getElem (by omega)⟩
  obtain ⟨⟨_, z⟩, hz⟩ : ∃ p, code.pieces[3]? = some p := ⟨_, List.getElem?_eq_getElem (by omega)⟩
  obtain ⟨rfl, seenY, -, hyCode, hyLet⟩ :=
    hall 0 (.binding ⟨"y", none, 0, false⟩) _ (by decide +kernel) hy
  obtain ⟨rfl, seenZ, -, hzCode, hzLet⟩ :=
    hall 3 (.binding ⟨"z", none, 0, false⟩) _ (by decide +kernel) hz
  obtain ⟨g, hg, hySees⟩ := hyLet _ rfl
  obtain ⟨h, hh, hzSees⟩ := hzLet _ rfl
  have hg' : some g = some (shadowingFrame []) :=
    (FrameM.result?_eq_some.mpr hg).symm
  have hh' : some h = some (shadowingFrame [("y", .i32), ("x", .f32)]) := by
    rw [← FrameM.result?_eq_some.mpr hh]
    decide +kernel
  refine ⟨_, code, s', y, z, seenY, seenZ, hframe, hdeclare, hlower, hy, hz, hyCode, ?_, hzCode, ?_⟩
  · rw [hySees.visible, Option.some.inj hg']
    rfl
  · rw [hzSees.visible, Option.some.inj hh']
    rfl

end WasmBackend
