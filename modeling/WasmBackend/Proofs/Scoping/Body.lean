import WasmBackend.Proofs.Control.Pieces
import WasmBackend.Proofs.Printed.Levels
import WasmBackend.Proofs.Scoping.Code

/-!
# Labels and names in the code of a body

Every branch of a lowered body goes to a label around it (`Lowers.scoped`): `break` and `continue`
take their labels from the stack of open loops, and whatever is on that stack stands around the code
being lowered. The names in the code are a matter of its pieces, each of which is the code of a leaf
(`Lowers.codes_all`).

Printed, a body is a sequence of lines in which constructs open and close in turn (`Nested`). That
they are closed holds of any body; that branches go to what is around them is what lowering sees to
(`Lowers.nested`). `LinesScoped` says the same with the open constructs as a stack, reading from the
front, and adds what the instructions have to satisfy (`Nested.scoped`). What the code does to the
operand stack is left out.
-/

namespace WasmBackend

open Compiled Lower

/-! ## Scoped bodies -/

/-- Branches go to labels that are open or opened on the way. -/
def Body.Scoped : List Label → Body → Prop
  | _, .done => True
  | labels, .run _ rest | labels, .ret _ rest | labels, .unreachable rest => rest.Scoped labels
  | labels, .block label inner rest | labels, .loop label inner rest =>
    inner.Scoped (label :: labels) ∧ rest.Scoped labels
  | labels, .branch label rest | labels, .branchUnless _ label rest =>
    label ∈ labels ∧ rest.Scoped labels
  | labels, .cond _ _ thenArm rest => thenArm.Scoped labels ∧ rest.Scoped labels
  | labels, .condElse _ _ thenArm elseArm rest =>
    thenArm.Scoped labels ∧ elseArm.Scoped labels ∧ rest.Scoped labels

namespace Body

variable {labels : List Label}

theorem scoped_append {a b : Body} :
    (a ++ b).Scoped labels ↔ a.Scoped labels ∧ b.Scoped labels := by
  show (a.append b).Scoped labels ↔ _
  induction a generalizing labels with
  | done => simp [append, Scoped]
  | _ => simp_all [append, Scoped, and_assoc]

theorem Scoped.closedArm {body : Body} (h : body.Scoped labels) (arena : Arena) (arm : StmtId)
    (yields : Bool) : (closedArm arena arm yields body).Scoped labels := by
  unfold Lower.closedArm
  split
  · exact scoped_append.mpr ⟨h, trivial⟩
  · exact h

theorem scoped_afterCond (yields tail : Bool) : (afterCond yields tail).Scoped labels := by
  unfold afterCond
  split <;> trivial

theorem scoped_loopBody {loop : LoopLabels} {code : Code} {inner step : Body}
    (hinner : inner.Scoped (loop.again :: loop.exit :: labels))
    (hstep : step.Scoped (loop.again :: loop.exit :: labels)) :
    (loopBody loop code inner step).Scoped labels := by
  refine ⟨⟨⟨by simp, ?_⟩, trivial⟩, trivial⟩
  exact scoped_append.mpr ⟨scoped_append.mpr ⟨hinner, hstep⟩, by simp, trivial⟩

end Body

/-! ## The code of leaves -/

/-- A local may be read and written. -/
structure AdmitsLocal (P : Instr → Prop) (name : String) : Prop where
  get : P (.localGet name)
  set : P (.localSet name)
  tee : P (.localTee name)

namespace Lower

variable {P : Instr → Prop} {sc : Scope}

/-- A member is given the value of its initialiser, or zero if it has none. -/
theorem initMember_ok {name member : String} {fields : List FieldInit} {layout : MemberLayout}
    {code : Code} (h : initMember sc name fields (member, layout) = .ok code) :
    ∃ s value, layout.ty.storage? = some s ∧
      ((∃ field, fields.find? (fun field => field.name == member) = some field ∧
          asLane sc field.value layout.ty.lane = .ok value) ∨
        fields.find? (fun field => field.name == member) = none ∧
          value = .one (.constant (.int 0) layout.ty.lane)) ∧
      code = .one (.localGet name) ++ value ++
        .ofList [.localTee (Scope.flattenedName name member), .store s layout.offset] := by
  simp only [initMember] at h
  cases hs : layout.ty.storage? with
  | none => simp [hs] at h
  | some s =>
    cases hfind : fields.find? (fun field => field.name == member) with
    | none =>
      simp only [hs, hfind, ok_bind, pure_ok] at h
      exact ⟨s, _, rfl, .inr ⟨rfl, rfl⟩, h.symm⟩
    | some field =>
      simp only [hs, hfind, bind_ok, pure_ok] at h
      obtain ⟨value, hvalue, rfl⟩ := h
      exact ⟨s, value, rfl, .inl ⟨field, rfl, hvalue⟩, rfl⟩

theorem initMembers_all (hsc : sc.Admits P) {name : String} {fields : List FieldInit}
    (hname : AdmitsLocal P name) {entries : List (String × MemberLayout)}
    (hmembers : ∀ e ∈ entries, AdmitsLocal P (Scope.flattenedName name e.1)) {code : Code}
    (h : initMembers sc name fields entries = .ok code) : code.All P := by
  induction entries generalizing code with
  | nil =>
    cases h
    trivial
  | cons entry rest ih =>
    simp only [initMembers, bind_ok, pure_ok] at h
    obtain ⟨first, hfirst, others, hothers, rfl⟩ := h
    have hrest := ih (fun e he => hmembers e (List.mem_cons_of_mem _ he)) hothers
    refine Code.all_append.mpr ⟨?_, hrest⟩
    have hentry := hmembers entry List.mem_cons_self
    obtain ⟨member, layout⟩ := entry
    obtain ⟨s, value, -, hvalue, rfl⟩ := initMember_ok hfirst
    have hvalue : value.All P := by
      rcases hvalue with ⟨field, -, hvalue⟩ | ⟨-, rfl⟩
      · exact hsc.composes.asLane (.inl trivial) hvalue
      · exact Code.all_one.mpr (hsc.plain _ (Instr.constant_shape _ _).1)
    have hstore : P (.store s layout.offset) := hsc.plain _ rfl
    simp [hname.get, hvalue, hentry.tee, hstore]

theorem letCode_all (hsc : sc.Admits P) {locals : Table String Variable} {decl : LetDecl}
    (hnames : ∀ n ∈ Source.letNames sc.info sc.arena decl, AdmitsLocal P n)
    {r : Code × List String} (h : letCode sc locals decl = .ok r) : r.1.All P := by
  unfold letCode at h
  obtain ⟨e, he, h⟩ := bind_ok.mp h
  rw [Scope.expr_eq_ok] at he
  unfold Source.letNames at hnames
  rw [he] at hnames
  cases e with
  | struct structName fields =>
    simp only [bind_ok, pure_ok] at h
    obtain ⟨layout, hlayout, -, -, address, haddress, members, hmembers, rfl⟩ := h
    simp only [hlayout] at hnames
    have hself := hnames decl.name List.mem_cons_self
    have hflattened : ∀ e ∈ layout.members.entries,
        AdmitsLocal P (Scope.flattenedName decl.name e.1) := by
      intro e he
      apply hnames
      refine List.mem_cons_of_mem _ (List.mem_map.mpr ⟨e.1, ?_, rfl⟩)
      exact List.mem_map.mpr ⟨e, he, rfl⟩
    have hcode := initMembers_all hsc hself hflattened hmembers
    simp [hsc.composes.lower (.inl trivial) haddress, hself.set, hcode]
  | _ =>
    simp only at h
    split at h
    · cases h
    · simp only [bind_ok, pure_ok] at h
      obtain ⟨value, hvalue, rfl⟩ := h
      have hself := hnames decl.name (List.mem_singleton.mpr rfl)
      simp [hsc.composes.asLane (.inl trivial) hvalue, hself.set]

theorem leafCode_all {info : ModuleInfo} {arena : Arena} {f : Frame}
    (hsc : Scope.Admits ⟨info, arena, some f⟩ P) {leaf : Leaf}
    (hnames : ∀ decl, leaf = .binding decl →
      ∀ n ∈ Source.letNames info arena decl, AdmitsLocal P n) {code : Code}
    (h : leafCode info arena f leaf = .ok code) : code.All P :=
  leafCode_composed hsc.composes (fun decl _ hleaf => letCode_all hsc (hnames decl hleaf)) h

end Lower

/-! ## Lowered bodies -/

/-- The state is one in the body of a function with the variables of `f`, and the labels of its open
loops are among those given. -/
structure LowerState.Fits (s : LowerState) (f : Frame) (labels : List Label) : Prop where
  frame : ∃ pending loops, s.frame = { f with pending, loops }
  loops : ∀ l ∈ s.frame.loops, l.exit ∈ labels ∧ l.again ∈ labels ∧ l.next ∈ labels

namespace LowerState.Fits

variable {info : ModuleInfo} {arena : Arena} {s s' : LowerState} {f : Frame} {labels : List Label}

/-- Lowering statements leaves the variables and the open loops as they are. -/
theorem lowers (h : s.Fits f labels) {ids : List StmtId} {tail : Bool} {body : Body}
    (hbody : Lowers info arena ids tail s body s') : s'.Fits f labels := by
  refine ⟨hbody.frame_variables h.frame, ?_⟩
  rw [hbody.frame_eq, Frame.revealAll_loops]
  exact h.loops

theorem enter (h : s.Fits f labels) (draw : LabelSupply → LoopLabels × LabelSupply)
    {inner : List Label} (hsub : ∀ l ∈ labels, l ∈ inner)
    (hexit : (draw s.labels).1.exit ∈ inner) (hagain : (draw s.labels).1.again ∈ inner)
    (hnext : (draw s.labels).1.next ∈ inner) : (s.enter draw).Fits f inner := by
  refine ⟨LowerState.enter_frame h.frame draw, fun l hl => ?_⟩
  rcases List.mem_cons.mp hl with rfl | hl
  · exact ⟨hexit, hagain, hnext⟩
  · obtain ⟨h₁, h₂, h₃⟩ := h.loops l hl
    exact ⟨hsub _ h₁, hsub _ h₂, hsub _ h₃⟩

end LowerState.Fits

section

variable {info : ModuleInfo} {arena : Arena} {ids : List StmtId} {tail : Bool} {s s' : LowerState}
variable {body : Body} {f : Frame}

/-- Lowered statements are scoped. The induction is on the rules of lowering; the labels grow where
a loop is entered, and with them what the state may have on its stack. -/
theorem Lowers.scoped (h : Lowers info arena ids tail s body s') {labels : List Label}
    (hs : s.Fits f labels) : body.Scoped labels := by
  induction h generalizing labels with
  | nil => trivial
  | cons hfirst _ ihFirst ihRest =>
    exact Body.scoped_append.mpr ⟨ihFirst hs, ihRest (hs.lowers hfirst)⟩
  | block _ _ _ ih => exact ih hs
  | letting _ _ | expr _ _ | retNothing _ | ret _ _ => trivial
  | cond _ _ _ _ ih => exact ⟨(ih hs).closedArm .., Body.scoped_afterCond _ _⟩
  | condElse _ _ _ _ hthen _ ihThen ihElse =>
    exact ⟨(ihThen hs).closedArm .., (ihElse (hs.lowers hthen)).closedArm ..,
      Body.scoped_afterCond _ _⟩
  | whileLoop _ _ _ _ ih =>
    refine Body.scoped_loopBody (ih ?_) trivial
    exact hs.enter _ (fun l hl => by simp [hl]) (List.mem_cons_of_mem _ List.mem_cons_self)
      List.mem_cons_self List.mem_cons_self
  | @forLoop _ _ _ _ update _ _ s₁ _ _ _ _ _ _ _ _ hinit _ _ hstep ihInit ihBody =>
    have henter : (s₁.enter LabelSupply.forLoop).Fits f
        (s₁.labels.forLoop.1.next :: s₁.labels.forLoop.1.again :: s₁.labels.forLoop.1.exit ::
          labels) :=
      (hs.lowers hinit).enter _ (fun l hl => by simp [hl]) (by simp) (by simp) (by simp)
    refine Body.scoped_append.mpr ⟨ihInit hs, Body.scoped_loopBody ⟨ihBody henter, trivial⟩ ?_⟩
    cases update with
    | none =>
      cases hstep
      trivial
    | some e =>
      obtain ⟨code, -, rfl⟩ := map_ok.mp hstep
      trivial
  | breakLoop _ hl => exact ⟨(hs.loops _ (List.mem_of_head? hl)).1, trivial⟩
  | continueLoop _ hl => exact ⟨(hs.loops _ (List.mem_of_head? hl)).2.2, trivial⟩

/-- All code of lowered statements is that of leaves, so what is admitted there and of the names
that are bound holds of it. -/
theorem Lowers.codes_all {P : Instr → Prop}
    (hscope : ∀ pending loops, Scope.Admits ⟨info, arena, some { f with pending, loops }⟩ P)
    (h : Lowers info arena ids tail s body s')
    (hnames : ∀ n ∈ ids.flatMap (Source.boundNames info arena), AdmitsLocal P n)
    (hs : ∃ pending loops, s.frame = { f with pending, loops }) {code : Code}
    (hcode : code ∈ body.codes) : code.All P := by
  rcases Body.exists_piece hcode with rfl | ⟨purpose, hpiece⟩
  · trivial
  · obtain ⟨leaf, hleaf, pending, hlowered⟩ := h.emits.leaf_of_mem hpiece
    obtain ⟨_, loops, hframe⟩ := hs
    rw [hframe] at hlowered
    refine leafCode_all (hscope pending loops) ?_ hlowered
    intro decl heq n hn
    obtain ⟨id, hid, hleaf⟩ := List.mem_flatMap.mp hleaf
    refine hnames n (List.mem_flatMap.mpr ⟨id, hid, List.mem_flatMap.mpr ⟨leaf, hleaf, ?_⟩⟩)
    rw [heq]
    exact hn

end

/-! ## Printed bodies nest -/

/-- The label of the construct that the line opens, and whether it is a loop. -/
def Line.opener? : Line → Option (Bool × Label)
  | .block label => some (false, label)
  | .loop label => some (true, label)
  | _ => none

/-- The lines are constructs in sequence, inside constructs with these labels: each opened
construct is closed, a conditional may have a second arm, and branches go to labels around them. -/
inductive Nested : List Label → List Line → Prop
  | nil {labels : List Label} : Nested labels []
  | instr {labels : List Label} {i : Instr} {rest : List Line}
      (htarget : ∀ label, i.target? = some label → label ∈ labels) (hrest : Nested labels rest) :
      Nested labels (.instr i :: rest)
  | labelled {labels : List Label} {l : Line} {isLoop : Bool} {label : Label}
      {inner rest : List Line} (hopens : l.opener? = some (isLoop, label))
      (hinner : Nested (label :: labels) inner) (hrest : Nested labels rest) :
      Nested labels (l :: (inner ++ .close :: rest))
  | cond {labels : List Label} {result : Option ValType} {arm rest : List Line}
      (harm : Nested labels arm) (hrest : Nested labels rest) :
      Nested labels (.cond result :: (arm ++ .close :: rest))
  | condElse {labels : List Label} {result : Option ValType} {thenArm elseArm rest : List Line}
      (hthen : Nested labels thenArm) (helse : Nested labels elseArm)
      (hrest : Nested labels rest) :
      Nested labels (.cond result :: (thenArm ++ .otherwise :: (elseArm ++ .close :: rest)))

theorem Nested.append {labels : List Label} {a b : List Line} (ha : Nested labels a)
    (hb : Nested labels b) : Nested labels (a ++ b) := by
  induction ha with
  | nil => exact hb
  | instr htarget _ ih => exact .instr htarget (ih hb)
  | labelled hopens hinner _ _ ih => simpa using Nested.labelled hopens hinner (ih hb)
  | cond harm _ _ ih => simpa using Nested.cond harm (ih hb)
  | condElse hthen helse _ _ _ ih => simpa using Nested.condElse hthen helse (ih hb)

section Nesting

variable {labels : List Label} {rest : List Line}

/-- The instruction does not jump. -/
def Instr.Stays (i : Instr) : Prop := i.target? = none

theorem Instr.stays_of_isPlain {i : Instr} (h : i.isPlain = true) : i.Stays := by
  cases i <;> first | rfl | cases h

theorem Nested.stays {i : Instr} (hi : i.Stays) (hrest : Nested labels rest) :
    Nested labels (.instr i :: rest) := by
  refine .instr ?_ hrest
  intro label hlabel
  rw [hi] at hlabel
  cases hlabel

theorem Code.All.nested {code : Code} (h : code.All Instr.Stays) (labels : List Label) :
    Nested labels code.lines := by
  induction code with
  | nil => exact .nil
  | instr i rest ih => exact (ih h.2).stays h.1
  | choose a b rest iha ihb ih => exact .condElse (iha h.1) (ihb h.2.1) (ih h.2.2)

theorem Body.lines_append (a b : Body) : (a ++ b).lines = a.lines ++ b.lines := by
  show (a.append b).lines = _
  induction a <;> simp_all [append, lines]

theorem Body.Scoped.nested {body : Body} (h : body.Scoped labels)
    (hcodes : ∀ code ∈ body.codes, code.All Instr.Stays) : Nested labels body.lines := by
  induction body generalizing labels with
  | done => exact .nil
  | run code rest ih =>
    obtain ⟨hcode, hrest⟩ := List.forall_mem_cons.mp hcodes
    exact (hcode.nested labels).append (ih h hrest)
  | block label inner rest ihInner ih | loop label inner rest ihInner ih =>
    obtain ⟨hinner, hrest⟩ := List.forall_mem_append.mp hcodes
    exact .labelled rfl (ihInner h.1 hinner) (ih h.2 hrest)
  | branch label rest ih =>
    refine .instr ?_ (ih h.2 hcodes)
    rintro _ ⟨⟩
    exact h.1
  | branchUnless condition label rest ih =>
    obtain ⟨hcode, hrest⟩ := List.forall_mem_cons.mp hcodes
    have hbranch : Nested labels (.instr (.branchIf label) :: rest.lines) := by
      refine .instr ?_ (ih h.2 hrest)
      rintro _ ⟨⟩
      exact h.1
    have htest : Nested labels (.instr .intEqz :: .instr (.branchIf label) :: rest.lines) :=
      hbranch.stays rfl
    simpa [Body.lines, Body.branchUnlessLines] using (hcode.nested labels).append htest
  | cond condition result thenArm rest ihThen ih =>
    obtain ⟨hcode, hinside⟩ := List.forall_mem_cons.mp hcodes
    obtain ⟨hthen, hrest⟩ := List.forall_mem_append.mp hinside
    have hif : Nested labels (.cond result :: (thenArm.lines ++ .close :: rest.lines)) :=
      .cond (ihThen h.1 hthen) (ih h.2 hrest)
    simpa [Body.lines, Body.condLines] using (hcode.nested labels).append hif
  | condElse condition result thenArm elseArm rest ihThen ihElse ih =>
    obtain ⟨hcode, hinside⟩ := List.forall_mem_cons.mp hcodes
    obtain ⟨hthen, hothers⟩ := List.forall_mem_append.mp hinside
    obtain ⟨helse, hrest⟩ := List.forall_mem_append.mp hothers
    have hif : Nested labels (.cond result ::
        (thenArm.lines ++ .otherwise :: (elseArm.lines ++ .close :: rest.lines))) :=
      .condElse (ihThen h.1 hthen) (ihElse h.2.1 helse) (ih h.2.2 hrest)
    simpa [Body.lines, Body.condLines] using (hcode.nested labels).append hif
  | ret value rest ih =>
    obtain ⟨hcode, hrest⟩ := List.forall_mem_cons.mp hcodes
    exact (hcode.nested labels).append ((ih h hrest).stays rfl)
  | unreachable rest ih => exact (ih h hcodes).stays rfl

/-- Whatever a name means, no variable or call is a jump. -/
theorem Scope.admits_stays (sc : Scope) : sc.Admits Instr.Stays where
  plain _ := Instr.stays_of_isPlain
  get _ v _ := by
    unfold Instr.get
    split <;> rfl
  set _ v i _ h := by
    unfold Instr.set at h
    split at h <;> cases h <;> rfl
  tee _ _ _ _ := rfl
  flattened _ _ v _ := by
    refine ⟨?_, rfl⟩
    unfold Instr.get
    split <;> rfl
  call _ _ _ := rfl

/-- Lowered statements nest, inside the labels of the loops around them. -/
theorem Lowers.nested {info : ModuleInfo} {arena : Arena} {ids : List StmtId} {tail : Bool}
    {s s' : LowerState} {body : Body} (h : Lowers info arena ids tail s body s') {f : Frame}
    (hs : s.Fits f labels) : Nested labels body.lines :=
  (h.scoped hs).nested fun _ =>
    h.codes_all (fun _ _ => Scope.admits_stays _) (fun _ _ => ⟨rfl, rfl, rfl⟩) hs.frame

end Nesting

/-! ## Reading from the front -/

/-- The lines can be read with these constructs open, innermost first: instructions satisfy `P`,
branches go to the label of an open construct, and at the end nothing is open. -/
def LinesScoped (P : Instr → Prop) : List (Option Label) → List Line → Prop
  | opened, [] => opened = []
  | opened, .instr (.branch label) :: rest => some label ∈ opened ∧ LinesScoped P opened rest
  | opened, .instr (.branchIf label) :: rest => some label ∈ opened ∧ LinesScoped P opened rest
  | opened, .instr i :: rest => P i ∧ LinesScoped P opened rest
  | opened, .block label :: rest => LinesScoped P (some label :: opened) rest
  | opened, .loop label :: rest => LinesScoped P (some label :: opened) rest
  | opened, .cond _ :: rest => LinesScoped P (none :: opened) rest
  | none :: opened, .otherwise :: rest => LinesScoped P (none :: opened) rest
  | _, .otherwise :: _ => False
  | _ :: opened, .close :: rest => LinesScoped P opened rest
  | [], .close :: _ => False

section Lines

variable {P : Instr → Prop}

/-- Nested lines read well, whatever constructs stand around them, if their instructions other than
jumps do what is asked. The induction is on the nesting, over whatever comes after the lines. -/
theorem Nested.scoped {labels : List Label} {ls : List Line} (h : Nested labels ls)
    (hinstr : ∀ i, .instr i ∈ ls → i.Stays → P i) {opened : List (Option Label)}
    (hopened : ∀ label ∈ labels, some label ∈ opened) {rest : List Line}
    (hrest : LinesScoped P opened rest) : LinesScoped P opened (ls ++ rest) := by
  have hinner : ∀ {labels : List Label} {opened : List (Option Label)} (label : Label),
      (∀ l ∈ labels, some l ∈ opened) → ∀ l ∈ label :: labels, some l ∈ some label :: opened := by
    intro labels opened label hopened l hl
    rcases List.mem_cons.mp hl with rfl | hl
    · exact List.mem_cons_self
    · exact List.mem_cons_of_mem _ (hopened l hl)
  have harm : ∀ {labels : List Label} {opened : List (Option Label)},
      (∀ l ∈ labels, some l ∈ opened) → ∀ l ∈ labels, some l ∈ none :: opened :=
    fun hopened l hl => List.mem_cons_of_mem _ (hopened l hl)
  induction h generalizing opened rest with
  | nil => exact hrest
  | @instr _ i _ htarget _ ih =>
    have htail := ih (fun j hj => hinstr j (List.mem_cons_of_mem _ hj)) hopened hrest
    cases i with
    | branch label | branchIf label => exact ⟨hopened label (htarget label rfl), htail⟩
    | _ => exact ⟨hinstr _ List.mem_cons_self rfl, htail⟩
  | @labelled _ l _ _ _ _ hopens _ _ ihInner ih =>
    have htail := ih (fun i hi => hinstr i (by simp [hi])) hopened hrest
    rw [List.cons_append, List.append_assoc]
    cases l with
    | block _ | loop _ =>
      cases hopens
      exact ihInner (fun i hi => hinstr i (by simp [hi])) (hinner _ hopened) htail
    | _ => cases hopens
  | cond _ _ ihArm ih =>
    have htail := ih (fun i hi => hinstr i (by simp [hi])) hopened hrest
    rw [List.cons_append, List.append_assoc]
    exact ihArm (fun i hi => hinstr i (by simp [hi])) (harm hopened) htail
  | condElse _ _ _ ihThen ihElse ih =>
    have htail := ih (fun i hi => hinstr i (by simp [hi])) hopened hrest
    rw [List.cons_append, List.append_assoc, List.cons_append, List.append_assoc]
    refine ihThen (fun i hi => hinstr i (by simp [hi])) (harm hopened) ?_
    exact ihElse (fun i hi => hinstr i (by simp [hi])) (harm hopened) htail

theorem Code.All.of_mem_lines {code : Code} (h : code.All P) {i : Instr}
    (hi : .instr i ∈ code.lines) : P i := by
  induction code with
  | nil => cases hi
  | instr j rest ih =>
    rcases List.mem_cons.mp hi with heq | hi
    · cases heq
      exact h.1
    · exact ih h.2 hi
  | choose a b rest iha ihb ih =>
    simp only [Code.lines, List.mem_cons, List.mem_append, reduceCtorEq, false_or] at hi
    rcases hi with hi | hi | hi
    · exact iha h.1 hi
    · exact ihb h.2.1 hi
    · exact ih h.2.2 hi

/-- Apart from jumps, the instructions of a body are plain ones and those of its codes. -/
theorem Body.mem_lines {body : Body} {i : Instr} (hi : .instr i ∈ body.lines) (hstays : i.Stays) :
    i.isPlain = true ∨ ∃ code ∈ body.codes, .instr i ∈ code.lines := by
  induction body with
  | done => cases hi
  | _ =>
    simp only [lines, condLines, branchUnlessLines, List.mem_cons, List.mem_append,
      List.not_mem_nil, reduceCtorEq, false_or, or_false, Line.instr.injEq] at hi
    grind [codes, Instr.Stays, Instr.target?, Instr.isPlain]

end Lines

end WasmBackend
