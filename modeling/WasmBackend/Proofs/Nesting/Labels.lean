import Mathlib.Data.List.Perm.Subperm
import WasmBackend.Proofs.Nesting.Lines
import WasmBackend.Proofs.Program.Names

/-!
# Labels are opened once

Every loop draws a number from one supply, which goes from function to function and from module to
module. The supply counts in a machine word and starts over when it is used up. So the labels that a
piece of code opens are those of so many loops after the ones that were numbered before it
(`Issued`), and no two of them are the same exactly as long as there are no more loops than numbers
(`Issued.nodup_iff`).

With that, and since lowered bodies nest, the texts of a program are read
(`compiled_functions_nest`): the code of every function is well nested and indented to match, if no
name holds a line break. A name that does can put an `end` into the text (`broken_name_unbalanced`).
-/

namespace WasmBackend

open Compiled Lower Text

/-- The labels that lines open, in order, each with whether it is that of a loop. -/
def Line.openers (ls : List Line) : List (Bool × Label) := ls.filterMap Line.opener?

namespace Line

@[simp] theorem openers_append (a b : List Line) : openers (a ++ b) = openers a ++ openers b :=
  List.filterMap_append

@[simp] theorem openers_cons (l : Line) (rest : List Line) :
    openers (l :: rest) = l.opener?.toList ++ openers rest := by
  cases hl : l.opener? <;> simp [openers, hl]

@[simp] theorem openers_code (code : Code) : openers code.lines = [] := by
  induction code with
  | nil => rfl
  | instr i rest ih => simp [Code.lines, opener?, ih]
  | choose a b rest iha ihb ih => simp [Code.lines, opener?, iha, ihb, ih]

/-- The labels that written code opens are those of its lines. -/
theorem openers_levelled (n : Nat) (ls : List Line) :
    Text.openers (levelled n ls) = (openers ls).map fun o => (o.1, o.2.text.toList) := by
  induction ls generalizing n with
  | nil => rfl
  | cons l rest ih =>
    have hrest := ih (l.levelAfter n)
    unfold Text.openers at hrest ⊢
    rw [levelled, openers_cons, List.map_append, ← hrest, List.filterMap_cons, opener?_text]
    cases l.opener? <;> rfl

end Line

/-! ## The supply -/

/-- What a loop opens under one of its labels: the kind of the label, and how many loops were
numbered since the supply was in this state. -/
def LabelSupply.opener (s : LabelSupply) (mark : LabelKind × Nat) : Bool × Label :=
  (mark.1 = .again, ⟨mark.1, s.issued + .ofNat mark.2⟩)

/-- The number of loops among what is opened: each has one label to go on with. -/
def loopsOf (marks : List (LabelKind × Nat)) : Nat := marks.countP (·.1 = .again)

/-- The labels were given out between two states of the supply: for each loop labels of different
kinds, and for each the next number, which starts over at some point. -/
def Issued (before after : LabelSupply) (opened : List (Bool × Label)) : Prop :=
  ∃ marks : List (LabelKind × Nat), marks.Nodup ∧ (∀ m ∈ marks, m.2 < loopsOf marks) ∧
    opened = marks.map before.opener ∧ after.issued = before.issued + .ofNat (loopsOf marks)

namespace Issued

variable {a b c : LabelSupply} {opened opened' : List (Bool × Label)}

theorem refl (a : LabelSupply) : Issued a a [] :=
  ⟨[], .nil, by simp, rfl, by simp [loopsOf]⟩

/-- The loops of the second piece come after those of the first. -/
theorem append (h : Issued a b opened) (h' : Issued b c opened') :
    Issued a c (opened ++ opened') := by
  obtain ⟨marks, hnodup, hrange, rfl, hb⟩ := h
  obtain ⟨marks', hnodup', hrange', rfl, hc⟩ := h'
  -- Loops of the second piece are numbered on from those of the first.
  let later : LabelKind × Nat → LabelKind × Nat := fun m => (m.1, loopsOf marks + m.2)
  have hlater : Function.Injective later := by
    rintro ⟨kind, n⟩ ⟨kind', n'⟩ heq
    simp only [later, Prod.mk.injEq] at heq
    exact Prod.ext heq.1 (Nat.add_left_cancel heq.2)
  have hloops : loopsOf (marks ++ marks'.map later) = loopsOf marks + loopsOf marks' := by
    simp [loopsOf, later, List.countP_append, List.countP_map, Function.comp_def]
  refine ⟨marks ++ marks'.map later, ?_, ?_, ?_, ?_⟩
  · rw [List.nodup_append]
    refine ⟨hnodup, hnodup'.map hlater, ?_⟩
    rintro m hm _ hm' rfl
    obtain ⟨m', -, rfl⟩ := List.mem_map.mp hm'
    have hlow := hrange _ hm
    simp only [later] at hlow
    omega
  · intro m hm
    rw [hloops]
    rcases List.mem_append.mp hm with hm | hm
    · exact Nat.lt_add_right _ (hrange m hm)
    · obtain ⟨m', hm', rfl⟩ := List.mem_map.mp hm
      exact Nat.add_lt_add_left (hrange' m' hm') _
  · rw [List.map_append, List.map_map]
    congr 1
    apply List.map_congr_left
    intro m _
    simp only [Function.comp_apply, LabelSupply.opener, later, hb, UInt32.ofNat_add,
      UInt32.add_assoc]
  · rw [hc, hb, hloops, UInt32.ofNat_add, UInt32.add_assoc]

/-- The labels of one loop, of different kinds. -/
theorem one (a : LabelSupply) {kinds : List LabelKind} (hkinds : kinds.Nodup)
    (hagain : kinds.count .again = 1) :
    Issued a ⟨a.issued + 1⟩ (kinds.map fun kind => (decide (kind = .again), ⟨kind, a.issued⟩)) := by
  have hloops : loopsOf (kinds.map fun kind => (kind, 0)) = 1 := by
    rw [← hagain, loopsOf, List.countP_map, List.count]
    exact List.countP_congr fun kind _ => by simp
  refine ⟨kinds.map fun kind => (kind, 0), ?_, ?_, ?_, ?_⟩
  · exact hkinds.map fun _ _ heq => congrArg Prod.fst heq
  · intro m hm
    obtain ⟨kind, -, rfl⟩ := List.mem_map.mp hm
    rw [hloops]
    exact Nat.zero_lt_one
  · rw [List.map_map]
    apply List.map_congr_left
    intro kind _
    simp [LabelSupply.opener]
  · rw [hloops]
    rfl

/-- All labels are different exactly if there is a number for each loop. -/
theorem nodup_iff (h : Issued a b opened) :
    (opened.map Prod.snd).Nodup ↔ opened.countP Prod.fst ≤ UInt32.size := by
  obtain ⟨marks, hnodup, hrange, rfl, -⟩ := h
  have hloops : (marks.map a.opener).countP Prod.fst = loopsOf marks := by
    rw [List.countP_map]
    rfl
  rw [hloops, List.map_map]
  constructor
  · -- The loops have different numbers, and there are only so many.
    intro hdifferent
    have hsub : (((marks.filter (·.1 = .again)).map (Prod.snd ∘ a.opener)).map
        fun l => l.loop.toNat).Nodup := by
      refine List.Nodup.map_on ?_ (hdifferent.sublist (List.filter_sublist.map _))
      intro l hl l' hl' heq
      obtain ⟨m, hm, rfl⟩ := List.mem_map.mp hl
      obtain ⟨m', hm', rfl⟩ := List.mem_map.mp hl'
      have hkind : m.1 = .again := by simpa using (List.mem_filter.mp hm).2
      have hkind' : m'.1 = .again := by simpa using (List.mem_filter.mp hm').2
      have hloop := UInt32.toNat_inj.mp heq
      simp only [Function.comp_apply, LabelSupply.opener] at hloop ⊢
      rw [hkind, hkind', hloop]
    have hrange : ∀ n ∈ ((marks.filter (·.1 = .again)).map (Prod.snd ∘ a.opener)).map
        (fun l => l.loop.toNat), n ∈ List.range UInt32.size := by
      intro n hn
      obtain ⟨l, -, rfl⟩ := List.mem_map.mp hn
      exact List.mem_range.mpr l.loop.toNat_lt_size
    have hlength := (List.subperm_of_subset hsub hrange).length_le
    rwa [List.length_map, List.length_map, List.length_range, ← List.countP_eq_length_filter]
      at hlength
  · intro hfew
    refine List.Nodup.map_on ?_ hnodup
    intro m hm m' hm' heq
    have hlow := hrange m hm
    have hlow' := hrange m' hm'
    simp only [Function.comp_apply, LabelSupply.opener, Label.mk.injEq] at heq
    have hloop := congrArg UInt32.toNat ((UInt32.add_right_inj _).mp heq.2)
    rw [UInt32.toNat_ofNat_of_lt' (by omega), UInt32.toNat_ofNat_of_lt' (by omega)] at hloop
    exact Prod.ext heq.1 hloop

end Issued

/-! ## Lowered code -/

/-- The labels that a body opens, each with whether it is that of a loop. -/
def Body.opened (body : Body) : List (Bool × Label) := Line.openers body.lines

namespace Body

@[simp] theorem opened_append (a b : Body) : (a ++ b).opened = a.opened ++ b.opened := by
  simp [opened, lines_append]

@[simp] theorem opened_done : (done).opened = [] := rfl

@[simp] theorem opened_run (code : Code) (rest : Body) : (run code rest).opened = rest.opened := by
  simp [opened, lines]

@[simp] theorem opened_block (label : Label) (inner rest : Body) :
    (block label inner rest).opened = (false, label) :: (inner.opened ++ rest.opened) := by
  simp [opened, lines, Line.opener?]

@[simp] theorem opened_loop (label : Label) (inner rest : Body) :
    (loop label inner rest).opened = (true, label) :: (inner.opened ++ rest.opened) := by
  simp [opened, lines, Line.opener?]

@[simp] theorem opened_branch (label : Label) (rest : Body) :
    (branch label rest).opened = rest.opened := by
  simp [opened, lines, Line.opener?]

@[simp] theorem opened_branchUnless (condition : Code) (label : Label) (rest : Body) :
    (branchUnless condition label rest).opened = rest.opened := by
  simp [opened, lines, branchUnlessLines, Line.opener?]

@[simp] theorem opened_cond (condition : Code) (result : Option ValType) (thenArm rest : Body) :
    (cond condition result thenArm rest).opened = thenArm.opened ++ rest.opened := by
  simp [opened, lines, condLines, Line.opener?]

@[simp] theorem opened_condElse (condition : Code) (result : Option ValType)
    (thenArm elseArm rest : Body) :
    (condElse condition result thenArm elseArm rest).opened =
      thenArm.opened ++ (elseArm.opened ++ rest.opened) := by
  simp [opened, lines, condLines, Line.opener?]

@[simp] theorem opened_ret (value : Code) (rest : Body) :
    (ret value rest).opened = rest.opened := by
  simp [opened, lines, Line.opener?]

@[simp] theorem opened_unreachable (rest : Body) : (unreachable rest).opened = rest.opened := by
  simp [opened, lines, Line.opener?]

end Body

section

variable {info : ModuleInfo} {arena : Arena}

@[simp] theorem opened_closedArm (arm : StmtId) (yields : Bool) (body : Body) :
    (closedArm arena arm yields body).opened = body.opened := by
  unfold closedArm
  split <;> simp

@[simp] theorem opened_afterCond (yields tail : Bool) : (afterCond yields tail).opened = [] := by
  unfold afterCond
  split <;> rfl

@[simp] theorem opened_loopBody (labels : LoopLabels) (code : Code) (inner step : Body) :
    (loopBody labels code inner step).opened =
      (false, labels.exit) :: (true, labels.again) :: (inner.opened ++ step.opened) := by
  simp [loopBody, loopRound]

theorem opened_updateBody {f : Frame} {update : Option ExprId} {step : Body}
    (h : updateBody info arena f update = .ok step) : step.opened = [] := by
  cases update with
  | none =>
    cases h
    rfl
  | some e =>
    obtain ⟨code, -, rfl⟩ := map_ok.mp h
    simp

/-- Lowered statements open the labels that were drawn for them. The induction is on the rules of
lowering; only loops draw. -/
theorem Lowers.issued {ids : List StmtId} {tail : Bool} {s s' : LowerState} {body : Body}
    (h : Lowers info arena ids tail s body s') : Issued s.labels s'.labels body.opened := by
  induction h with
  | nil => exact .refl _
  | cons _ _ ihFirst ihRest =>
    rw [Body.opened_append]
    exact ihFirst.append ihRest
  | block _ _ _ ih => exact ih
  | letting _ _ | expr _ _ =>
    rw [Body.opened_run]
    exact .refl _
  | cond _ _ _ _ ih => simpa using ih
  | condElse _ _ _ _ _ _ ihThen ihElse => simpa using ihThen.append ihElse
  | @whileLoop id body cond tail s s' code inner hs hlt hcode hbody ih =>
    have hloop := (Issued.one s.labels (show [LabelKind.exit, .again].Nodup by simp) rfl).append ih
    rw [opened_loopBody, Body.opened_done, List.append_nil]
    exact hloop
  | @forLoop id body init cond update tail s s₁ s₂ code start inner step hs hinitLt hlt hinit hcode
      hbody hstep ihInit ihBody =>
    have hloop :=
      (Issued.one s₁.labels (show [LabelKind.exit, .again, .next].Nodup by simp) rfl).append ihBody
    rw [Body.opened_append, opened_loopBody, Body.opened_block, opened_updateBody hstep,
      Body.opened_done, List.append_nil, List.append_nil]
    exact ihInit.append hloop
  | retNothing _ | ret _ _ => simpa using Issued.refl _
  | breakLoop _ _ | continueLoop _ _ => simpa using Issued.refl _

end

/-! ## Functions -/

namespace Lower

section

variable {info : ModuleInfo} {arena : Arena} {name : String} {entry : FunctionEntry}
variable {f : Wat.Func}

theorem lowerFunction_issued {s s' : EmitState}
    (h : lowerFunction info arena name entry s = .ok f s') :
    Issued s.labels s'.labels f.body.opened := by
  obtain ⟨l, hbefore, hafter⟩ := lowerFunction_lowering h
  have hbody := l.lowers.issued
  rw [← hbefore, ← hafter]
  rcases l.body_cases with heq | heq
  · rw [heq]
    exact hbody
  · rw [heq, Body.opened_append]
    simpa using hbody

end

end Lower

/-- What each step of a loop issues, the loop issues. -/
theorem EmitM.mapM_issued {α β : Type} {f : α → EmitM β} {labels : β → List (Bool × Label)}
    (hf : ∀ a b s s', f a s = .ok b s' → Issued s.labels s'.labels (labels b)) {l : List α}
    {l' : List β} {s s' : EmitState} (h : l.mapM f s = .ok l' s') :
    Issued s.labels s'.labels (l'.flatMap labels) := by
  induction l generalizing l' s with
  | nil =>
    rw [List.mapM_nil, EStateM.pure_ok] at h
    obtain ⟨rfl, rfl⟩ := h
    exact .refl _
  | cons a rest ih =>
    simp only [List.mapM_cons, EStateM.bind_ok, EStateM.pure_ok] at h
    obtain ⟨b, s₁, hb, bs, s₂, hbs, rfl, rfl⟩ := h
    exact (hf a b s s₁ hb).append (ih hbs)

/-- The labels that the functions of a module open. -/
def Wat.Module.opened (wat : Wat.Module) : List (Bool × Label) :=
  wat.funcs.flatMap fun f => f.body.opened

theorem lowerModule_issued {memory : Wat.MemoryImport} {arena : Arena} {info : ModuleInfo}
    {wat : Wat.Module} {s s' : EmitState} (h : lowerModule memory arena info s = .ok wat s') :
    Issued s.labels s'.labels wat.opened := by
  simp only [lowerModule, EStateM.bind_ok, EStateM.pure_ok, EmitM.ofCompiled_ok] at h
  obtain ⟨_, _, ⟨-, rfl⟩, _, _, ⟨-, rfl⟩, funcs, _, hfuncs, rfl, rfl⟩ := h
  exact EmitM.mapM_issued (fun e f s s' hf => lowerFunction_issued hf) hfuncs

theorem lowerAll_issued {memory : Wat.MemoryImport} {linked : List ModuleInfo}
    {labels : LabelSupply} {modules : List Module} {targets : List (String × Wat.Module)}
    (h : lowerAll memory linked labels modules = .ok targets) :
    ∃ after, Issued labels after (targets.flatMap fun t => t.2.opened) := by
  induction modules generalizing labels targets with
  | nil =>
    cases h
    exact ⟨labels, .refl labels⟩
  | cons m rest ih =>
    obtain ⟨info, wat, s, others, -, hlower, hothers, rfl⟩ := lowerAll_cons_ok h
    obtain ⟨after, hafter⟩ := ih hothers
    exact ⟨after, (lowerModule_issued hlower).append hafter⟩

/-- Labels are told apart by their texts. -/
theorem Label.text_injective : Function.Injective Label.text := by
  rintro ⟨kind, n⟩ ⟨kind', n'⟩ h
  have hchars := congrArg String.toList h
  -- The second letter tells the kind.
  have hkind : kind = kind' := by
    have hsecond := congrArg (fun cs => cs[1]?) hchars
    cases kind <;> cases kind' <;> first | rfl | simp [Label.text, String.toList_append] at hsecond
  subst hkind
  have hdigits : Nat.toDigits 10 n.toNat = Nat.toDigits 10 n'.toNat := by
    cases kind <;> simpa [Label.text, String.toList_append] using hchars
  have hloop : n.toNat = n'.toNat := by
    rw [← Nat.ofDigitChars_ten_toDigits (n := n.toNat), hdigits, Nat.ofDigitChars_ten_toDigits]
  rw [UInt32.toNat_inj.mp hloop]

/-! ## Programs -/

section

variable {catalog : Catalog} {base : Nat} {memory : Wat.MemoryImport} {modules : List Module}
variable {targets : List (String × Wat.Module)}

/-- The functions of the texts are those of the target modules, and what lowering gave nests. -/
theorem targets_functions (hnames : OneLineNames catalog memory modules)
    (h : targetModules catalog base memory modules = .ok targets) {t : String × Wat.Module}
    (ht : t ∈ targets) :
    (functions t.2.text.toList = t.2.funcs.map fun f => Line.levelled 2 f.body.lines) ∧
      ∀ f ∈ t.2.funcs, Nested [] f.body.lines := by
  obtain ⟨infos, linked, hextract, hlink, hlower⟩ := targetModules_ok h
  obtain ⟨m, hm, -, info, -, -, ⟨b⟩⟩ := built_of_target hextract hlink hlower ht
  refine ⟨(b.forms hnames hextract hm).functions_eq, ?_⟩
  intro f hf
  obtain ⟨e, -, ⟨l⟩⟩ := b.lowers.exists_lowering hf
  exact l.nested

/-- The labels that the texts open are those that the target modules open. -/
theorem targets_openers (hnames : OneLineNames catalog memory modules)
    (h : targetModules catalog base memory modules = .ok targets) :
    ((targetTexts targets).flatMap fun t => (functions t.2.toList).flatMap openers) =
      (targets.flatMap fun t => t.2.opened).map fun o => (o.1, o.2.text.toList) := by
  rw [targetTexts, List.flatMap_map, List.map_flatMap]
  apply List.flatMap_congr
  intro t ht
  rw [(targets_functions hnames h ht).1, List.flatMap_map, Wat.Module.opened, List.map_flatMap]
  apply List.flatMap_congr
  intro f _
  exact Line.openers_levelled 2 f.body.lines

end

/-- A writer keeps step with the lines of any body. What lowering adds is that the lines nest, with
branches to enclosing labels only, and that the labels they open are the next of the supply. So if
no name has a line break in it, the texts of a program hold the code of its functions, each balanced
and indented to match, and no label is opened twice in all of them, exactly as long as there are no
more loops than the supply has numbers. -/
theorem compiled_functions_nest {σ : Type} (load : String → StateM σ (Except LoadError Module))
    (catalog : Catalog) (base : Nat) (memory : Wat.MemoryImport) (entry : String) (s s' : σ)
    (program : Program) :
    (∀ (body : Body) (w : Writer), w.Follows body.lines) ∧
    (∀ (info : ModuleInfo) (arena : Arena) (name : String) (function : FunctionEntry)
        (t t' : EmitState) (f : Wat.Func), lowerFunction info arena name function t = .ok f t' →
      Nested [] f.body.lines ∧ Issued t.labels t'.labels f.body.opened) ∧
    (compile load catalog base memory entry s = (.ok program, s') →
      (∀ modules, loadWorkingSet load catalog entry s = (.ok modules, s') →
        OneLineNames catalog memory modules) →
      (∃ modules targets, loadWorkingSet load catalog entry s = (.ok modules, s') ∧
        targetModules catalog base memory modules = .ok targets ∧
        program.modules = targetTexts targets ∧
        ∀ t ∈ targets,
          functions t.2.text.toList = t.2.funcs.map fun f => Line.levelled 2 f.body.lines) ∧
      (∀ t ∈ program.modules, ∀ code ∈ functions t.2.toList, balanced 2 [] code = true) ∧
      (((program.modules.flatMap fun t => (functions t.2.toList).flatMap openers).map
          Prod.snd).Nodup ↔
        (program.modules.flatMap fun t => (functions t.2.toList).flatMap openers).countP Prod.fst ≤
          UInt32.size)) := by
  refine ⟨Body.follows, ?_, ?_⟩
  · intro info arena name function t t' f h
    obtain ⟨l⟩ := lowerFunction_ok h
    exact ⟨l.nested, lowerFunction_issued h⟩
  · intro h hnames
    obtain ⟨modules, hload, targets, htargets, rfl⟩ := compile_ok.mp h
    have hfunctions {t : String × Wat.Module} (ht : t ∈ targets) :=
      targets_functions (hnames modules hload) htargets ht
    refine ⟨⟨modules, targets, hload, htargets, rfl, fun t ht => (hfunctions ht).1⟩, ?_, ?_⟩
    · intro t ht code hcode
      obtain ⟨t, hmem, rfl⟩ := List.mem_map.mp ht
      rw [(hfunctions hmem).1] at hcode
      obtain ⟨f, hf, rfl⟩ := List.mem_map.mp hcode
      have hbalanced : balanced 2 [] (Line.levelled 2 (f.body.lines ++ [])) = true :=
        ((hfunctions hmem).2 f hf).balanced (by simp) []
      rwa [List.append_nil] at hbalanced
    · obtain ⟨infos, linked, -, -, hlower⟩ := targetModules_ok htargets
      obtain ⟨after, hissued⟩ := lowerAll_issued hlower
      -- In the text labels are characters, and different labels are written differently.
      have hlabels : Function.Injective fun l : Label => l.text.toList :=
        fun _ _ heq => Label.text_injective (String.toList_inj.mp heq)
      rw [targets_openers (hnames modules hload) htargets, List.countP_map, List.map_map]
      refine Iff.trans ?_ hissued.nodup_iff
      rw [← List.nodup_map_iff hlabels, List.map_map]
      rfl

/-- `while (n) break;` -/
def spinner : Module where
  name := "spinner"
  items := [2]
  arena := {
    exprs := #[.ident "n"]
    stmts := #[.breakLoop, .whileLoop 0 0, .function ⟨"spin", [⟨"n", .i32⟩], .void, 1, true⟩] }

/-- `while (n) for (; n;) spin(n);` -/
def caller : Module where
  name := "caller"
  items := [0, 4]
  arena := {
    exprs := #[.ident "n", .call "spin" [0]]
    stmts := #[.importing ⟨"spinner", ["spin"]⟩, .expr 1, .forLoop none 0 none 1, .whileLoop 0 2,
      .function ⟨"drive", [⟨"n", .i32⟩], .void, 3, false⟩] }

def loadCaller (name : String) : StateM Unit (Except LoadError Module) :=
  pure (.ok (if name = "caller" then caller else spinner))

/-- Two modules with three loops between them: seven labels, all different. -/
theorem caller_functions_nest :
    ∃ program, compile loadCaller {} 16 {} "caller" () = (.ok program, ()) ∧
      (program.modules.flatMap fun t => (functions t.2.toList).flatMap openers) =
        [(false, "$block_0".toList), (true, "$loop_0".toList), (false, "$block_1".toList),
          (true, "$loop_1".toList), (false, "$continue_1".toList), (false, "$block_2".toList),
          (true, "$loop_2".toList)] ∧
      (∀ t ∈ program.modules, ∀ code ∈ functions t.2.toList, balanced 2 [] code = true) ∧
      ((program.modules.flatMap fun t => (functions t.2.toList).flatMap openers).map
        Prod.snd).Nodup := by
  have hload : loadWorkingSet loadCaller {} "caller" () = (.ok [caller, spinner], ()) := rfl
  have hsort : sortByName [caller, spinner] = [caller, spinner] :=
    List.mergeSort_of_pairwise (by simp [caller, spinner])
  have hopened : ((targetModules {} 16 {} [caller, spinner]).toOption.map
      fun targets => (targets.flatMap fun t => t.2.opened).map fun o => (o.1, o.2.text.toList)) =
        some [(false, "$block_0".toList), (true, "$loop_0".toList), (false, "$block_1".toList),
          (true, "$loop_1".toList), (false, "$continue_1".toList), (false, "$block_2".toList),
          (true, "$loop_2".toList)] := by
    unfold targetModules
    rw [hsort]
    decide +kernel
  obtain ⟨targets, htargets, hlabels⟩ := Option.map_eq_some_iff.mp hopened
  have htargets := eq_ok_iff.mpr htargets
  have hcompile := compile_ok.mpr ⟨_, hload, _, htargets, rfl⟩
  have honeLine : OneLineNames {} {} [caller, spinner] := ⟨by decide, by decide, by decide⟩
  have hnames : ∀ modules, loadWorkingSet loadCaller {} "caller" () = (.ok modules, ()) →
      OneLineNames {} {} modules := by
    intro modules h
    rw [hload] at h
    cases h
    exact honeLine
  obtain ⟨-, hbalanced, hnodup⟩ :=
    (compiled_functions_nest loadCaller {} 16 {} "caller" () () _).2.2 hcompile hnames
  have hopeners := (targets_openers honeLine htargets).trans hlabels
  refine ⟨_, hcompile, hopeners, hbalanced, hnodup.mpr ?_⟩
  rw [hopeners]
  decide

/-- A function with a local whose name ends in a line of its own. -/
def breaker : Module where
  name := "breaker"
  items := [2]
  arena := {
    exprs := #[.int 1]
    stmts := #[.letting ⟨"x\nend", none, 0, false⟩, .block [0],
      .function ⟨"f", [], .void, 1, false⟩] }

def loadBreaker (_ : String) : StateM Unit (Except LoadError Module) := pure (.ok breaker)

/-- With that name an `end` stands in the text that closes nothing. -/
theorem broken_name_unbalanced :
    ∃ program, compile loadBreaker {} 16 {} "breaker" () = (.ok program, ()) ∧
      ∃ t ∈ program.modules, ∃ code ∈ functions t.2.toList, balanced 2 [] code = false := by
  let body : Body := .run (.instr (.intConst 1) (.instr (.localSet "x\nend") .nil)) .done
  let wat : Wat.Module := {
    memory := {}
    types := [⟨"_v", [], none⟩]
    imports := []
    globals := []
    data := []
    funcs := [⟨"f", false, "_v", [], none, [("x\nend", .i32)], body⟩] }
  have hload : loadWorkingSet loadBreaker {} "breaker" () = (.ok [breaker], ()) := rfl
  have htargets : (targetModules {} 16 {} [breaker]).toOption = some [("breaker", wat)] := by
    unfold targetModules sortByName
    rw [List.mergeSort_singleton]
    decide +kernel
  have hunbalanced : ∃ code ∈ functions wat.text.toList, balanced 2 [] code = false := by
    rw [Wat.Module.text_eq]
    decide +kernel
  have hcompile := compile_ok.mpr ⟨_, hload, _, eq_ok_iff.mpr htargets, rfl⟩
  exact ⟨_, hcompile, ("breaker", wat.text), List.mem_singleton_self _, hunbalanced⟩

end WasmBackend
