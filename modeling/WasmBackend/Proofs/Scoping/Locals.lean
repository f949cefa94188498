import WasmBackend.Proofs.Scoping.Declarations
import WasmBackend.Proofs.Traversal.References

/-!
# The locals of a function are the names that its body binds

The locals of a function are declared by one walk over its body, and the names of its lets are bound
by another, which lowers it. The two agree: what is declared is what the statements bind
(`Lower.FunctionLowering.mem_declared`), for both go by the lets: to declare a statement is to
declare its lets in order (`declareLocals_declaresLets`). On the way no two locals get the same
name, and none that of a parameter. What types they get is left out here.
-/

namespace WasmBackend

open Lower

/-! ## Frames -/

/-- No two variables of the frame share a name. -/
structure Frame.Distinct (f : Frame) : Prop where
  params : f.params.keys.Nodup
  locals : f.locals.keys.Nodup
  disjoint : ∀ name ∈ f.locals.keys, name ∉ f.params.keys

namespace Frame.Distinct

theorem add {f : Frame} {d : Declaration} (hf : f.Distinct) (h : f.Admits d) :
    (f.add d).Distinct := by
  unfold Frame.add
  cases hget : f.locals.get? d.name with
  | some v => exact hf
  | none =>
    have hfresh := Table.get?_eq_none_iff.mp hget
    have hset : f.locals.set d.name d.toVariable = f.locals.extend [(d.name, d.toVariable)] := by
      unfold Table.set
      rw [if_neg (mt Table.contains_iff.mp hfresh)]
      rfl
    dsimp only
    rw [hset]
    refine { hf with locals := Table.keys_extend_nodup _ hf.locals hfresh, disjoint := ?_ }
    intro name hname
    rw [Table.keys_extend] at hname
    rcases List.mem_append.mp hname with hold | hnew
    · exact hf.disjoint name hold
    · exact List.mem_singleton.mp hnew ▸ h.1

theorem addAll {f : Frame} {ds : List Declaration} (hf : f.Distinct) (h : f.AdmitsAll ds) :
    (f.addAll ds).Distinct := by
  induction ds generalizing f with
  | nil => exact hf
  | cons d rest ih => exact ih (hf.add h.1) h.2

end Frame.Distinct

/-! ## The lets of a statement -/

/-- The `let` that a leaf is. -/
def Leaf.decl? : Leaf → Option LetDecl
  | .binding decl => some decl
  | _ => none

namespace Source

variable {arena : Arena}

/-- The lets of a statement, in the order of the text. A statement that is shared counts wherever it
stands. -/
def lets (arena : Arena) (id : StmtId) : List LetDecl := (leaves arena id).filterMap Leaf.decl?

/-- A `let` of a statement stands somewhere in it. -/
theorem inside_of_mem_lets {decl : LetDecl} {body : StmtId} (h : decl ∈ lets arena body) :
    ∃ id, arena.stmt? id = some (.letting decl) ∧ arena.Inside id body := by
  replace h : .binding decl ∈ leaves arena body := by
    obtain ⟨leaf, hleaf, hdecl⟩ := List.mem_filterMap.mp h
    cases leaf <;> cases hdecl
    exact hleaf
  induction body using Nat.strongRecOn with
  | ind body ih =>
    rw [leaves_eq] at h
    have hsub {child : StmtId} {s : Stmt} (hs : arena.stmt? body = some s)
        (hchild : child ∈ s.stmtChildren)
        (hmem : .binding decl ∈ if child < body then leaves arena child else []) :
        ∃ id, arena.stmt? id = some (.letting decl) ∧ arena.Inside id body := by
      by_cases hlt : child < body
      · rw [if_pos hlt] at hmem
        obtain ⟨id, hid, hinside⟩ := ih child hlt hmem
        exact ⟨id, hid, .child hs hchild hinside⟩
      · simp [hlt] at hmem
    unfold leavesStep at h
    cases hs : arena.stmt? body with
    | none => simp [hs] at h
    | some s =>
      rw [hs] at h
      cases s with
      | block stmts =>
        obtain ⟨child, hchild, hmem⟩ := List.mem_flatMap.mp h
        exact hsub hs hchild hmem
      | letting decl' =>
        cases List.mem_singleton.mp h
        exact ⟨body, hs, .self⟩
      | cond condition thenBranch elseBranch =>
        simp only [List.mem_cons, List.mem_append, reduceCtorEq, false_or] at h
        rcases h with hmem | hmem
        · exact hsub hs List.mem_cons_self hmem
        · cases elseBranch with
          | none => cases hmem
          | some elseBranch => exact hsub hs (by simp) hmem
      | whileLoop condition body =>
        simp only [List.mem_cons, reduceCtorEq, false_or] at h
        exact hsub hs List.mem_cons_self h
      | forLoop init condition update body =>
        simp only [List.mem_cons, List.mem_append, List.mem_map, reduceCtorEq, and_false,
          exists_false, or_false, false_or] at h
        rcases h with hmem | hmem
        · cases init with
          | none => cases hmem
          | some init => exact hsub hs (by simp) hmem
        · exact hsub hs (by simp) hmem
      | ret value => cases value <;> simp at h
      | expr e => simp at h
      | _ => cases h

/-- Of all leaves only lets make names visible. -/
theorem flatMap_leafNames (info : ModuleInfo) (leaves : List Leaf) :
    leaves.flatMap (leafNames info arena) =
      (leaves.filterMap Leaf.decl?).flatMap (letNames info arena) := by
  induction leaves with
  | nil => rfl
  | cons leaf rest ih => cases leaf <;> simp [leafNames, Leaf.decl?, List.filterMap_cons, ih]

/-- A statement binds the names of its lets. -/
theorem boundNames_eq_lets (info : ModuleInfo) (id : StmtId) :
    boundNames info arena id = (lets arena id).flatMap (letNames info arena) :=
  flatMap_leafNames info (leaves arena id)

end Source

/-! ## Declaring, let by let -/

namespace FrameM

variable {α β : Type} {k : β → FrameM Unit}

theorem forM_append (a b : List β) : (a ++ b).forM k = (a.forM k >>= fun _ => b.forM k) :=
  List.forM_append ..

/-- Going through a list is going through its first part, then through the rest. -/
theorem forM_append_ok {a b : List β} {f f' : Frame} :
    (a ++ b).forM k f = .ok () f' ↔ ∃ g, a.forM k f = .ok () g ∧ b.forM k g = .ok () f' := by
  rw [forM_append, EStateM.bind_ok]
  exact ⟨fun ⟨_, g, h⟩ => ⟨g, h⟩, fun ⟨g, h⟩ => ⟨(), g, h⟩⟩

/-- Going through a list in which each element stands for a list. -/
theorem forM_flatMap (l : List α) (g : α → List β) :
    (l.flatMap g).forM k = l.forM fun a => (g a).forM k := by
  induction l with
  | nil => rfl
  | cons a rest ih =>
    rw [List.flatMap_cons, forM_append, ih]
    rfl

/-- When the step succeeds, it has declared these lets, one after the other. -/
def DeclaresLets (info : ModuleInfo) (arena : Arena) (x : FrameM Unit)
    (l : List LetDecl) : Prop :=
  ∀ f f', x f = .ok () f' → l.forM (declareLet info arena) f = .ok () f'

end FrameM

namespace Lower

open FrameM (DeclaresLets)

variable {info : ModuleInfo} {arena : Arena}

/-- Declaring the locals of a statement is declaring those of its lets in order, if the failure for
want of a statement does not count or cannot come. -/
theorem declareLocals_related {R : FrameM Unit → FrameM Unit → Prop} (hR : Sequential R)
    (hrefl : ∀ x, R x x) {id : StmtId}
    (hwhole : (∀ e y, R (throw e) y) ∨ arena.WellReferenced ∧ id < arena.stmts.size) :
    R (declareLocals info arena id) ((Source.lets arena id).forM (declareLet info arena)) := by
  induction id using Nat.strongRecOn with
  | ind id ih =>
    rw [declareLocals, descend_eq, ← declareLocals, Source.lets, Source.leaves_eq]
    unfold Source.leavesStep
    cases hs : arena.stmt? id with
    | none =>
      refine hwhole.elim (fun hthrow => hthrow _ _) fun hwhole => ?_
      obtain ⟨s, hs'⟩ := Arena.exists_stmt hwhole.2
      simp [hs] at hs'
    | some s =>
      have hsub (child : StmtId) (hchild : child ∈ s.stmtChildren) :
          R (if child < id then declareLocals info arena child else throw (.danglingStmt id child))
            (((if child < id then Source.leaves arena child else []).filterMap Leaf.decl?).forM
              (declareLet info arena)) := by
        by_cases hlt : child < id
        · rw [if_pos hlt, if_pos hlt]
          exact ih child hlt (hwhole.imp_right fun h => ⟨h.1, Nat.lt_trans hlt h.2⟩)
        · rw [if_neg hlt]
          exact hwhole.elim (fun hthrow => hthrow _ _) fun h =>
            absurd (h.1.stmts id s hs child hchild) hlt
      have hoption (o : Option StmtId) (ho : o.toList ⊆ s.stmtChildren) := by
        refine hR.optionForM (o := o) fun child hchild => hsub child (ho ?_)
        exact Option.mem_toList.mpr hchild
      have helim (o : Option StmtId) {sub : StmtId → List Leaf} :
          ((o.elim [] sub).filterMap Leaf.decl?).forM (declareLet info arena) =
            o.forM fun child => ((sub child).filterMap Leaf.decl?).forM
              (declareLet info arena) := by
        cases o <;> rfl
      cases s with
      | block stmts =>
        rw [List.filterMap_flatMap, FrameM.forM_flatMap]
        exact hR.forM hsub
      | letting decl =>
        rw [show ([Leaf.binding decl].filterMap Leaf.decl?).forM (declareLet info arena) =
          declareLet info arena decl from bind_pure_unit]
        exact hrefl _
      | cond c thenBranch elseBranch =>
        simp only [List.filterMap_cons, Leaf.decl?, List.filterMap_append]
        rw [FrameM.forM_append, helim]
        exact hR.andThen (hsub thenBranch List.mem_cons_self)
          (hoption elseBranch (List.subset_cons_self _ _))
      | whileLoop c body => exact hsub body List.mem_cons_self
      | forLoop init c update body =>
        have hupdate : (update.toList.map Leaf.effect).filterMap Leaf.decl? = [] := by
          cases update <;> rfl
        simp only [List.filterMap_cons, Leaf.decl?, List.filterMap_append, hupdate, List.append_nil]
        rw [FrameM.forM_append, helim]
        exact hR.andThen (hoption init (List.subset_append_left _ _))
          (hsub body (List.mem_append_right _ List.mem_cons_self))
      | ret value => cases value <;> exact hR.pure
      | _ => exact hR.pure

theorem declareLocals_declaresLets (id : StmtId) :
    DeclaresLets info arena (declareLocals info arena id) (Source.lets arena id) := by
  refine declareLocals_related (R := fun x y => ∀ f f', x f = .ok () f' → y f = .ok () f')
    ⟨fun _ _ h => h, ?_⟩ (fun _ _ _ h => h) (.inl fun e y f f' h => by cases h)
  intro x x' y y' hx hy f f' h
  obtain ⟨_, g, hg, hf'⟩ := EStateM.bind_ok.mp h
  exact EStateM.bind_ok.mpr ⟨(), g, hx f g hg, hy g f' hf'⟩

theorem declareLocals_ok {id : StmtId} {f f' : Frame}
    (h : declareLocals info arena id f = .ok () f') :
    ∃ ds, Resolves info arena f (Source.lets arena id) ds ∧ f.AdmitsAll ds ∧ f' = f.addAll ds :=
  declareLets_ok (declareLocals_declaresLets id f f' h)

/-! ## The frame of a function -/

namespace FunctionLowering

variable {name : String} {entry : FunctionEntry} {f : Wat.Func}

theorem declared_params (l : FunctionLowering info arena name entry f) :
    l.declared.params = l.params.params := by
  obtain ⟨ds, -, -, heq⟩ := declareLocals_ok l.declared_eq
  rw [heq, Frame.params_addAll]

theorem declared_distinct (l : FunctionLowering info arena name entry f) : l.declared.Distinct := by
  obtain ⟨ds, -, hadmits, heq⟩ := declareLocals_ok l.declared_eq
  obtain ⟨hframe, hparams⟩ := functionFrame_eq l.params_eq
  rw [heq]
  refine Frame.Distinct.addAll ?_ hadmits
  rw [hframe] at hparams ⊢
  exact ⟨hparams, .nil, fun _ hlocal => nomatch hlocal⟩

theorem declared_loops (l : FunctionLowering info arena name entry f) : l.declared.loops = [] := by
  obtain ⟨ds, -, -, heq⟩ := declareLocals_ok l.declared_eq
  rw [heq, Frame.addAll_eq, (functionFrame_eq l.params_eq).1]

/-- The locals of a function are the names that its body binds. -/
theorem mem_declared (l : FunctionLowering info arena name entry f) (n : String) :
    n ∈ l.declared.locals.keys ↔ n ∈ Source.boundNames info arena l.decl.body := by
  obtain ⟨ds, hds, -, heq⟩ := declareLocals_ok l.declared_eq
  rw [heq, Frame.mem_addAll, hds.mem_names, Source.boundNames_eq_lets,
    (functionFrame_eq l.params_eq).1]
  exact or_iff_right (fun hlocal => nomatch hlocal)

end FunctionLowering

end Lower

end WasmBackend
