import WasmBackend.Lower.Module
import WasmBackend.Proofs.Control.Pieces
import WasmBackend.Proofs.Symbols.Declarations

/-!
# The parts of a lowered module

Where each part of a lowered module comes from: its functions from the function table, one by one,
each from a body lowered in a frame of its own; its imports and globals from their tables; its types
from the signatures in use, of which there is one for each encoding. What the bodies are lowered to
is left to `Control.Lowered`.
-/

namespace WasmBackend

open Compiled Lower

/-! ## Steps -/

namespace EmitM

theorem ofCompiled_ok {α : Type} {x : Compiled α} {a : α} {s s' : EmitState} :
    EmitM.ofCompiled x s = .ok a s' ↔ x = .ok a ∧ s = s' := by
  cases x <;> simp [EmitM.ofCompiled]

/-- Steps taken one after the other each give their element. -/
theorem mapM_ok {α β : Type} {f : α → EmitM β} {l : List α} {l' : List β} {s s' : EmitState}
    (h : l.mapM f s = .ok l' s') :
    List.Forall₂ (fun a b => ∃ s₁ s₂, f a s₁ = .ok b s₂) l l' := by
  induction l generalizing l' s with
  | nil =>
    rw [List.mapM_nil, EStateM.pure_ok] at h
    obtain ⟨rfl, -⟩ := h
    exact .nil
  | cons a rest ih =>
    simp only [List.mapM_cons, EStateM.bind_ok, EStateM.pure_ok] at h
    obtain ⟨b, s₁, hb, bs, s₂, hbs, rfl, rfl⟩ := h
    exact .cons ⟨s, s₁, hb⟩ (ih hbs)

end EmitM

namespace Lower

variable {memory : Wat.MemoryImport} {arena : Arena} {info : ModuleInfo} {name : String}
variable {s s' : EmitState}

/-- The frame that was pushed for a lowering comes back as the lowering left it, and so does the
supply of labels. -/
theorem withFrame_ok {α : Type} {frame frame' : Frame} {x : LowerM α} {a : α}
    (h : withFrame frame x s = .ok (a, frame') s') :
    ∃ after, x ⟨frame, s.labels⟩ = .ok a after ∧ after.frame = frame' ∧
      after.labels = s'.labels := by
  unfold withFrame at h
  cases hx : x ⟨frame, s.labels⟩ with
  | error e after => simp [hx] at h
  | ok b after =>
    cases hpush : s.stack.push frame with
    | mk position stack =>
      have hfinish : ((stack.modify position fun _ => after.frame).finish position).1 =
          some after.frame := by
        cases hpush
        simp [FrameStack.modify, FrameStack.finish, FrameStack.get?, FrameStack.depth]
      simp only [hpush, hx] at h
      generalize (stack.modify position fun _ => after.frame).finish position = r at h hfinish
      obtain ⟨_, rest⟩ := r
      cases hfinish
      cases h
      exact ⟨after, rfl, rfl, rfl⟩

/-! ## Functions -/

/-- Adding parameters one by one lists them in order. -/
theorem addParams_ok {l : List Binding} {f f' : Frame} (hf : f.params.keys.Nodup)
    (h : l.foldlM (fun (f : Frame) p =>
      match f.params.insert? p.name ⟨p.name, .param, p.ty⟩ with
      | some params => .ok { f with params }
      | none => .error (.duplicateDefinition .localVar p.name)) f = (.ok f' : Compiled Frame)) :
    f' = { f with params := f.params.extend (l.map fun p => (p.name, ⟨p.name, .param, p.ty⟩)) } ∧
      f'.params.keys.Nodup := by
  induction l generalizing f with
  | nil =>
    cases h
    simp [hf]
  | cons p rest ih =>
    obtain ⟨next, hnext, hrest⟩ := bind_ok.mp h
    cases hinsert : f.params.insert? p.name ⟨p.name, .param, p.ty⟩ with
    | none => simp [hinsert] at hnext
    | some params =>
      obtain ⟨hfresh, rfl⟩ := Table.insert?_eq_some.mp hinsert
      simp only [hinsert] at hnext
      cases hnext
      simpa using ih (Table.keys_extend_nodup _ hf hfresh) hrest

/-- The frame of a function has the parameters of its declaration, each under its name, and nothing
else. No two of them share a name. -/
theorem functionFrame_eq {decl : FunctionDecl} {f : Frame}
    (h : functionFrame name decl = .ok f) :
    f = { name, result := decl.result,
          params := ⟨decl.params.map fun p => (p.name, ⟨p.name, .param, p.ty⟩)⟩ } ∧
      f.params.keys.Nodup := by
  have hstart : ({ name, result := decl.result } : Frame).params.keys.Nodup := .nil
  exact addParams_ok hstart h

/-- How a function was lowered: the locals of its body are declared in a frame that holds its
parameters, and the body is lowered with all of them pending. Lowering leaves both as they are. -/
structure FunctionLowering (info : ModuleInfo) (arena : Arena) (name : String)
    (entry : FunctionEntry) (f : Wat.Func) where
  decl : FunctionDecl
  /-- With the parameters, and then also with the locals. -/
  params : Frame
  declared : Frame
  labels : LabelSupply
  body : Body
  after : LowerState
  decl_eq : arena.stmt? entry.decl = some (.function decl)
  params_eq : functionFrame name decl = .ok params
  declared_eq : declareLocals info arena decl.body params = .ok () declared
  lowers : Lowers info arena [decl.body] true ⟨declared.hideLocals, labels⟩ body after
  func_eq : f = {
    name
    exported := entry.exported
    encoded := entry.signature.encoded
    params := variableTypes declared.params
    result := decl.result.lane.valType?
    locals := variableTypes declared.locals
    body := if !after.frame.result.isVoid && !arena.neverFallsThrough decl.body
      then body ++ .unreachable .done else body }

/-- A function that was lowered, with the labels before and after. -/
theorem lowerFunction_lowering {entry : FunctionEntry} {f : Wat.Func}
    (h : lowerFunction info arena name entry s = .ok f s') :
    ∃ l : FunctionLowering info arena name entry f,
      l.labels = s.labels ∧ l.after.labels = s'.labels := by
  unfold lowerFunction at h
  cases hdecl : arena.stmt? entry.decl with
  | none => simp only [hdecl, EStateM.throw_ok] at h
  | some stmt =>
    cases stmt with
    | function decl =>
      simp only [hdecl, EStateM.bind_ok, EStateM.pure_ok, EmitM.ofCompiled_ok] at h
      obtain ⟨params, _, ⟨hparams, rfl⟩, ⟨code, frame⟩, _, hframe, rfl, rfl⟩ := h
      obtain ⟨after, hlower, rfl, hlabels⟩ := withFrame_ok hframe
      unfold lowerInFrame at hlower
      cases hlocals : declareLocals info arena decl.body params with
      | error e f => simp [hlocals] at hlower
      | ok u declared =>
        simp only [hlocals] at hlower
        obtain ⟨body, hbody, rfl⟩ := lowerBody_ok hlower
        have hafter := hbody.frame_eq
        rw [Frame.revealAll_eq] at hafter
        refine ⟨⟨decl, params, declared, _, body, after, hdecl, hparams, hlocals, hbody, ?_⟩, rfl,
          hlabels⟩
        rw [hafter]
        rfl
    | _ => simp only [hdecl, EStateM.throw_ok] at h

theorem lowerFunction_ok {entry : FunctionEntry} {f : Wat.Func}
    (h : lowerFunction info arena name entry s = .ok f s') :
    Nonempty (FunctionLowering info arena name entry f) := by
  obtain ⟨l, -⟩ := lowerFunction_lowering h
  exact ⟨l⟩

/-- A body is the lowered statements, perhaps closed. -/
theorem FunctionLowering.body_cases {entry : FunctionEntry} {f : Wat.Func}
    (l : FunctionLowering info arena name entry f) :
    f.body = l.body ∨ f.body = l.body ++ .unreachable .done := by
  rw [congrArg Wat.Func.body l.func_eq]
  dsimp only
  split
  · exact .inr rfl
  · exact .inl rfl

/-- The end that a body may get has no code of its own. -/
theorem FunctionLowering.codes_eq {entry : FunctionEntry} {f : Wat.Func}
    (l : FunctionLowering info arena name entry f) : f.body.codes = l.body.codes := by
  rcases l.body_cases with heq | heq
  · rw [heq]
  · rw [heq, Body.codes_append]
    exact List.append_nil _

/-! ## The module -/

/-- A module, lowered: each part from its table. -/
structure ModuleLowers (memory : Wat.MemoryImport) (arena : Arena) (info : ModuleInfo)
    (wat : Wat.Module) : Prop where
  resolved : ∀ e ∈ info.imports.entries, ∃ d, e.2.descriptor = some d
  globals : globalDecls info arena = .ok wat.globals
  funcs : List.Forall₂ (fun e f => Nonempty (FunctionLowering info arena e.1 e.2 f))
    info.functions.entries wat.funcs
  parts : wat = {
    memory
    types := (signatures info).map funcType
    imports := info.imports.entries.filterMap fun (name, i) => importDecl? name i
    globals := wat.globals
    data := info.data.segments.filter fun b => !b.bytes.isEmpty
    funcs := wat.funcs }

theorem checkResolved_ok (h : checkResolved info = .ok ()) :
    ∀ e ∈ info.imports.entries, ∃ d, e.2.descriptor = some d := by
  unfold checkResolved Table.values at h
  generalize info.imports.entries = entries at h ⊢
  induction entries with
  | nil => simp
  | cons first rest ih =>
    obtain ⟨_, hfirst, hrest⟩ := bind_ok.mp h
    refine List.forall_mem_cons.mpr ⟨?_, ih hrest⟩
    obtain ⟨d, hd, -⟩ := map_ok.mp hfirst
    exact ⟨d, ImportEntry.resolved_ok hd⟩

theorem lowerModule_ok {wat : Wat.Module} (h : lowerModule memory arena info s = .ok wat s') :
    ModuleLowers memory arena info wat := by
  simp only [lowerModule, EStateM.bind_ok, EStateM.pure_ok, EmitM.ofCompiled_ok] at h
  obtain ⟨⟨⟩, _, ⟨hresolved, rfl⟩, globals, _, ⟨hglobals, rfl⟩, funcs, _, hfuncs, rfl, rfl⟩ := h
  refine ⟨checkResolved_ok hresolved, hglobals, ?_, rfl⟩
  refine (EmitM.mapM_ok hfuncs).imp ?_
  rintro ⟨name, entry⟩ f ⟨_, _, hf⟩
  exact lowerFunction_ok hf

/-! ## Types -/

/-- Keeping the first of each encoding keeps one for each, and only what was there. -/
theorem foldl_firstEncoded (l seen : List Signature)
    (hseen : (seen.map Signature.encoded).Nodup) :
    let kept := l.foldl (fun seen s =>
      if seen.any (fun t => t.encoded == s.encoded) then seen else seen ++ [s]) seen
    (kept.map Signature.encoded).Nodup ∧ (∀ s ∈ kept, s ∈ seen ++ l) ∧
      ∀ s ∈ seen ++ l, s.encoded ∈ kept.map Signature.encoded := by
  induction l generalizing seen with
  | nil =>
    refine ⟨hseen, by simp, ?_⟩
    intro s hs
    exact List.mem_map_of_mem (by simpa using hs)
  | cons first rest ih =>
    rw [List.foldl_cons]
    by_cases hany : seen.any (fun t => t.encoded == first.encoded) = true
    · -- The encoding is there already.
      obtain ⟨hnodup, hsub, hall⟩ := ih seen hseen
      simp only [hany, if_true]
      refine ⟨hnodup, fun s hs => ?_, fun s hs => ?_⟩
      · rcases List.mem_append.mp (hsub s hs) with h | h
        · exact List.mem_append_left _ h
        · exact List.mem_append_right _ (List.mem_cons_of_mem _ h)
      · rcases List.mem_append.mp hs with h | h
        · exact hall s (List.mem_append_left _ h)
        · rcases List.mem_cons.mp h with rfl | h
          · obtain ⟨t, ht, heq⟩ := List.any_eq_true.mp hany
            rw [← eq_of_beq heq]
            exact hall t (List.mem_append_left _ ht)
          · exact hall s (List.mem_append_right _ h)
    · have hfresh : first.encoded ∉ seen.map Signature.encoded := by
        rintro hmem
        obtain ⟨t, ht, heq⟩ := List.mem_map.mp hmem
        exact hany (List.any_eq_true.mpr ⟨t, ht, by simp [heq]⟩)
      have hseen' : ((seen ++ [first]).map Signature.encoded).Nodup := by
        rw [List.map_append, List.nodup_append]
        refine ⟨hseen, by simp, ?_⟩
        rintro encoded hmem _ hmem' rfl
        have heq : encoded = first.encoded := List.mem_singleton.mp hmem'
        exact hfresh (heq ▸ hmem)
      obtain ⟨hnodup, hsub, hall⟩ := ih (seen ++ [first]) hseen'
      simp only [hany]
      exact ⟨hnodup, fun s hs => by simpa using hsub s hs,
        fun s hs => hall s (by simpa using hs)⟩

/-- The signatures that the functions of a module have, imported or defined. -/
def usedSignatures (info : ModuleInfo) : List Signature :=
  (info.imports.values.filterMap fun i => i.descriptor.bind Descriptor.function?) ++
    info.functions.values.map FunctionEntry.signature

theorem signatures_nodup (info : ModuleInfo) :
    ((signatures info).map Signature.encoded).Nodup :=
  (foldl_firstEncoded (usedSignatures info) [] .nil).1

theorem mem_signatures {s : Signature} (hs : s ∈ usedSignatures info) :
    ∃ t ∈ signatures info, t.encoded = s.encoded :=
  List.mem_map.mp ((foldl_firstEncoded (usedSignatures info) [] .nil).2.2 s (by simpa using hs))

/-- The machine type that a letter of an encoding stands for. -/
def letterType? : Char → Option ValType
  | 'i' => some .i32
  | 'f' => some .f32
  | _ => none

theorem letterType?_letter (lane : Lane) : letterType? lane.letter = lane.valType? := by
  cases lane <;> rfl

/-- A function type is determined by its encoding. -/
theorem funcType_eq_of_encoded {a b : Signature} (h : a.encoded = b.encoded) :
    funcType a = funcType b := by
  obtain ⟨hparams, hresult⟩ := Signature.letters_of_encodeLanes h
  have htypes : ∀ lanes : List Lane,
      lanes.filterMap Lane.valType? = (lanes.map Lane.letter).filterMap letterType? := by
    intro lanes
    simp only [List.filterMap_map, Function.comp_def, letterType?_letter]
  unfold funcType
  rw [h, htypes, htypes, hparams, ← letterType?_letter, ← letterType?_letter, hresult]

/-- The type under which a signature in use is declared: there is one, and it is that of the
signature. -/
theorem find_type {s : Signature} (hs : s ∈ usedSignatures info) :
    ((signatures info).map funcType).find? (fun t => t.encoded == s.encoded) =
      some (funcType s) := by
  obtain ⟨t, ht, hencoded⟩ := mem_signatures hs
  cases hfind : ((signatures info).map funcType).find? (fun t => t.encoded == s.encoded) with
  | none =>
    have hnot := List.find?_eq_none.mp hfind (funcType t) (List.mem_map_of_mem ht)
    exact absurd (by simpa [funcType] using hencoded) hnot
  | some found =>
    obtain ⟨u, -, rfl⟩ := List.mem_map.mp (List.mem_of_find?_eq_some hfind)
    have hu : u.encoded = s.encoded := by simpa [funcType] using List.find?_some hfind
    rw [funcType_eq_of_encoded hu]

/-! ## Imports, functions and globals by name -/

/-- An import is declared under the names that the table has for it. -/
theorem importDecl?_names {i : ImportEntry} {w : Wat.Import} (h : importDecl? name i = some w) :
    w.source = i.source ∧ w.field = i.name ∧ w.name = name := by
  unfold importDecl? at h
  split at h <;> cases h <;> exact ⟨rfl, rfl, rfl⟩

/-- A function import is declared with the type of its descriptor. -/
theorem importDecl?_func {i : ImportEntry} {w : Wat.Import} {encoded : String}
    (h : importDecl? name i = some w) (hitem : w.item = .func encoded) :
    ∃ s, i.descriptor = some (.function s) ∧ s.encoded = encoded := by
  unfold importDecl? at h
  split at h <;> cases h <;> cases hitem
  exact ⟨_, ‹_›, rfl⟩

/-- What is declared for a global depends on where it is kept. -/
theorem importDecl?_global (source name : String) (ty : Ty) (inMemory : Bool) :
    importDecl? name ⟨source, name, some (.global ty inMemory)⟩ =
      some ⟨source, name, name, .global (if inMemory then .i32 else ty.valType) (!inMemory)⟩ := by
  cases inMemory <;> rfl

/-- Every defined function was lowered from an entry of the table. -/
theorem ModuleLowers.exists_lowering {wat : Wat.Module} (h : ModuleLowers memory arena info wat)
    {f : Wat.Func} (hf : f ∈ wat.funcs) :
    ∃ e ∈ info.functions.entries, Nonempty (FunctionLowering info arena e.1 e.2 f) :=
  exists_of_forall₂_right h.funcs hf

/-- Every function of the table is defined, under its name and with its type. -/
theorem ModuleLowers.exists_func {wat : Wat.Module} (h : ModuleLowers memory arena info wat)
    {entry : FunctionEntry} (hentry : (name, entry) ∈ info.functions.entries) :
    ∃ f ∈ wat.funcs, f.name = name ∧ f.exported = entry.exported ∧
      f.encoded = entry.signature.encoded := by
  obtain ⟨f, hf, ⟨hlowering⟩⟩ := exists_of_forall₂ h.funcs hentry
  refine ⟨f, hf, ?_⟩
  rw [hlowering.func_eq]
  exact ⟨rfl, rfl, rfl⟩

theorem globalDecl?_names {g : GlobalEntry} {w : Wat.Global}
    (h : globalDecl? arena name g = .ok (some w)) : w.name = name ∧ w.exported = g.exported := by
  unfold globalDecl? at h
  split at h
  · split at h
    · cases h
      exact ⟨rfl, rfl⟩
    · cases h
  · split at h
    · next hexported =>
      cases h
      exact ⟨rfl, hexported.symm⟩
    · cases h

/-- What is declared for the globals of a module, in order. -/
theorem globalDecls_ok {globals : List Wat.Global} (h : globalDecls info arena = .ok globals) :
    ∃ decls, List.Forall₂ (fun e d => globalDecl? arena e.1 e.2 = .ok d) info.globals.entries
      decls ∧ globals = decls.filterMap id := by
  simp only [globalDecls, bind_ok, mapM_ok, pure_ok] at h
  obtain ⟨decls, hdecls, rfl⟩ := h
  exact ⟨decls, hdecls, rfl⟩

/-- Every global of the table has been declared as its kind says. -/
theorem exists_globalDecl {globals : List Wat.Global} (h : globalDecls info arena = .ok globals)
    {g : GlobalEntry} (hg : (name, g) ∈ info.globals.entries) :
    ∃ d, globalDecl? arena name g = .ok d ∧ ∀ w ∈ d, w ∈ globals := by
  obtain ⟨decls, hdecls, rfl⟩ := globalDecls_ok h
  obtain ⟨d, hd, hdecl⟩ := exists_of_forall₂ hdecls hg
  refine ⟨d, hdecl, fun w hw => ?_⟩
  exact List.mem_filterMap.mpr ⟨some w, hw ▸ hd, rfl⟩

end Lower

end WasmBackend
