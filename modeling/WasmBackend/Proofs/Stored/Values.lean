import WasmBackend.Proofs.Types.Grammar
import WasmBackend.Syntax.Json

/-!
# Stored nodes

Reading forgets how a node was given: in which order its parts stood, whether they were named, which
of them were left out. What it keeps is always small enough to be stored, since node ids are read as
32 bits and types from a spelling (`Module.gives_storable`). Conversely, a module with such ids and
types is read back from the value that it is written as (`Module.ofJson?_toJson`).

The two halves meet in `Storable`. Nothing is said about integers, characters and names: each of
their values has a stored form that no other has.
-/

namespace WasmBackend

open Json (required? optional? nat ids opt ofTy tag)

/-! ## What readers give -/

namespace Json

variable {α : Type} {P : α → Prop} {read : Json → Option α}

/-- Whatever the reader gives has this property. -/
def Gives (read : Json → Option α) (P : α → Prop) : Prop :=
  ∀ j a, read j = some a → P a

theorem Gives.required (h : Gives read P) {j : Option Json} {a : α}
    (hj : required? read j = some a) : P a := by
  cases j with
  | none => cases hj
  | some j => exact h j a hj

theorem Gives.option (h : Gives read P) {j : Json} {o : Option α}
    (hj : j.option? read = some o) : ∀ a ∈ o, P a := by
  intro a ha
  cases ha
  cases j with
  | null => cases hj
  | _ =>
    obtain ⟨a, ha, ⟨⟩⟩ := Option.map_eq_some_iff.mp hj
    exact h _ a ha

theorem Gives.optional (h : Gives read P) {j : Option Json} {o : Option α}
    (hj : optional? read j = some o) : ∀ a ∈ o, P a := by
  cases j with
  | none =>
    cases hj
    nofun
  | some j => exact h.option hj

theorem Gives.list (h : Gives read P) : Gives (list? read) fun l => ∀ a ∈ l, P a := by
  intro j l hj
  cases j with
  | arr items =>
    simp only [list?] at hj
    induction items generalizing l with
    | nil =>
      cases hj
      nofun
    | cons first rest ih =>
      simp only [List.mapM_cons, Option.bind_eq_bind, Option.bind_eq_some_iff] at hj
      obtain ⟨a, ha, l, hl, ⟨⟩⟩ := hj
      exact List.forall_mem_cons.mpr ⟨h first a ha, ih l hl⟩
  | _ => cases hj

theorem gives_nodeId : Gives nodeId? (· < 0x100000000) := by
  intro j n hj
  cases j with
  | int n =>
    simp only [nodeId?, nat32?] at hj
    split at hj
    · cases hj
      omega
    · cases hj
  | _ => cases hj

theorem gives_type : Gives Ty.ofJson? Ty.Spellable := by
  intro j t hj
  simp only [Ty.ofJson?, Option.bind_eq_bind, Option.bind_eq_some_iff] at hj
  obtain ⟨source, -, hsource⟩ := hj
  split at hsource
  · next hparse =>
    cases hsource
    exact .of_parse hparse
  · cases hsource

end Json

/-! ## Nodes that can be stored -/

/-- The types that stand in an expression. -/
def Expr.types : Expr → List Ty
  | array _ elementType => elementType.toList
  | _ => []

/-- The types that stand in a statement. -/
def Stmt.types : Stmt → List Ty
  | function decl => decl.params.map Binding.ty ++ [decl.result]
  | struct decl => decl.fields.map Binding.ty
  | letting decl => decl.ty.toList
  | _ => []

/-- Node ids take 32 bits, and types have a spelling. -/
structure Expr.Storable (e : Expr) : Prop where
  ids : ∀ child ∈ e.children, child < 0x100000000
  types : ∀ t ∈ e.types, t.Spellable

/-- Node ids take 32 bits, and types have a spelling. -/
structure Stmt.Storable (s : Stmt) : Prop where
  stmtIds : ∀ child ∈ s.stmtChildren, child < 0x100000000
  exprIds : ∀ child ∈ s.exprChildren, child < 0x100000000
  types : ∀ t ∈ s.types, t.Spellable

/-- A module all of whose nodes can be stored. -/
structure Module.Storable (m : Module) : Prop where
  items : ∀ id ∈ m.items, id < 0x100000000
  exprs : ∀ e ∈ m.arena.exprs.toList, e.Storable
  stmts : ∀ s ∈ m.arena.stmts.toList, s.Storable

/-! ## What is read can be stored -/

open Json (Gives gives_nodeId gives_type)

/-- The parts of a node that has two. -/
theorem Json.two_parts {α : Type} {x : Option (List (Option Json))}
    {f : Option Json → Option Json → Option α} {r : α}
    (h : (x >>= fun
      | [a, b] => f a b
      | _ => none) = some r) : ∃ a b, f a b = some r := by
  obtain ⟨parts, -, h⟩ := Option.bind_eq_some_iff.mp h
  split at h
  · exact ⟨_, _, h⟩
  · cases h

/-- The parts of a node that has three. -/
theorem Json.three_parts {α : Type} {x : Option (List (Option Json))}
    {f : Option Json → Option Json → Option Json → Option α} {r : α}
    (h : (x >>= fun
      | [a, b, c] => f a b c
      | _ => none) = some r) : ∃ a b c, f a b c = some r := by
  obtain ⟨parts, -, h⟩ := Option.bind_eq_some_iff.mp h
  split at h
  · exact ⟨_, _, _, h⟩
  · cases h

/-- The parts of a node that has four. -/
theorem Json.four_parts {α : Type} {x : Option (List (Option Json))}
    {f : Option Json → Option Json → Option Json → Option Json → Option α} {r : α}
    (h : (x >>= fun
      | [a, b, c, d] => f a b c d
      | _ => none) = some r) : ∃ a b c d, f a b c d = some r := by
  obtain ⟨parts, -, h⟩ := Option.bind_eq_some_iff.mp h
  split at h
  · exact ⟨_, _, _, _, h⟩
  · cases h

theorem FieldInit.gives_value : Gives ofJson? fun f => f.value < 0x100000000 := by
  intro j f hj
  obtain ⟨_, _, h⟩ := Json.two_parts hj
  simp only [Option.bind_eq_bind, Option.bind_eq_some_iff] at h
  obtain ⟨_, -, value, hvalue, ⟨⟩⟩ := h
  exact gives_nodeId.required hvalue

theorem Binding.gives_ty : Gives ofJson? fun b => b.ty.Spellable := by
  intro j b hj
  obtain ⟨_, _, h⟩ := Json.two_parts hj
  simp only [Option.bind_eq_bind, Option.bind_eq_some_iff] at h
  obtain ⟨_, -, ty, hty, ⟨⟩⟩ := h
  exact gives_type.required hty

theorem Expr.storable_of_ofTagged? {form : NodeForm} {name : String} {j : Json} {e : Expr}
    (h : ofTagged? form name j = some e) : e.Storable := by
  have hpair : ∀ {a b : ExprId}, a < 0x100000000 → b < 0x100000000 →
      ∀ child ∈ [a, b], child < 0x100000000 := by
    intro a b ha hb
    simp [ha, hb]
  unfold ofTagged? at h
  split at h
  -- The leaves.
  case h_1 | h_2 | h_3 | h_4 | h_5 | h_6 =>
    obtain ⟨value, -, rfl⟩ := Option.map_eq_some_iff.mp h
    exact ⟨nofun, nofun⟩
  case h_7 =>
    obtain ⟨_, _, h⟩ := Json.two_parts h
    simp only [Option.bind_eq_bind, Option.bind_eq_some_iff] at h
    obtain ⟨elements, helements, elementType, helementType, ⟨⟩⟩ := h
    refine ⟨gives_nodeId.list.required helements, ?_⟩
    intro t ht
    exact gives_type.optional helementType t (Option.mem_toList.mp ht)
  case h_8 =>
    obtain ⟨_, _, h⟩ := Json.two_parts h
    simp only [Option.bind_eq_bind, Option.bind_eq_some_iff] at h
    obtain ⟨_, -, fields, hfields, ⟨⟩⟩ := h
    refine ⟨?_, nofun⟩
    intro child hchild
    obtain ⟨field, hfield, rfl⟩ := List.mem_map.mp hchild
    exact FieldInit.gives_value.list.required hfields field hfield
  case h_9 =>
    obtain ⟨_, _, _, h⟩ := Json.three_parts h
    simp only [Option.bind_eq_bind, Option.bind_eq_some_iff] at h
    obtain ⟨_, -, left, hleft, right, hright, ⟨⟩⟩ := h
    exact ⟨hpair (gives_nodeId.required hleft) (gives_nodeId.required hright), nofun⟩
  case h_10 | h_11 =>
    obtain ⟨_, _, h⟩ := Json.two_parts h
    simp only [Option.bind_eq_bind, Option.bind_eq_some_iff] at h
    obtain ⟨_, -, operand, hoperand, ⟨⟩⟩ := h
    exact ⟨by simpa using gives_nodeId.required hoperand, nofun⟩
  case h_12 =>
    obtain ⟨_, _, h⟩ := Json.two_parts h
    simp only [Option.bind_eq_bind, Option.bind_eq_some_iff] at h
    obtain ⟨_, -, args, hargs, ⟨⟩⟩ := h
    exact ⟨gives_nodeId.list.required hargs, nofun⟩
  case h_13 | h_16 =>
    obtain ⟨_, _, h⟩ := Json.two_parts h
    simp only [Option.bind_eq_bind, Option.bind_eq_some_iff] at h
    obtain ⟨first, hfirst, second, hsecond, ⟨⟩⟩ := h
    exact ⟨hpair (gives_nodeId.required hfirst) (gives_nodeId.required hsecond), nofun⟩
  case h_14 | h_15 =>
    obtain ⟨_, _, h⟩ := Json.two_parts h
    simp only [Option.bind_eq_bind, Option.bind_eq_some_iff] at h
    obtain ⟨base, hbase, _, -, ⟨⟩⟩ := h
    exact ⟨by simpa using gives_nodeId.required hbase, nofun⟩
  case h_17 => cases h

theorem Expr.gives_storable (form : NodeForm) : Gives (ofJson? form) Storable := by
  intro j e hj
  unfold ofJson? at hj
  split at hj
  · exact storable_of_ofTagged? hj
  · cases hj

theorem FunctionDecl.storable {j : Json} {decl : FunctionDecl} (h : ofJson? j = some decl) :
    (Stmt.function decl).Storable := by
  obtain ⟨parts, -, h⟩ := Option.bind_eq_some_iff.mp h
  split at h
  · simp only [Option.bind_eq_bind, Option.bind_eq_some_iff] at h
    obtain ⟨_, -, params, hparams, result, hresult, body, hbody, _, -, ⟨⟩⟩ := h
    refine ⟨by simpa using gives_nodeId.required hbody, nofun, ?_⟩
    intro t ht
    obtain ht | ht := List.mem_append.mp ht
    · obtain ⟨param, hparam, rfl⟩ := List.mem_map.mp ht
      exact Binding.gives_ty.list.required hparams param hparam
    · cases List.mem_singleton.mp ht
      exact gives_type.required hresult
  · cases h

theorem StructDecl.storable {j : Json} {decl : StructDecl} (h : ofJson? j = some decl) :
    (Stmt.struct decl).Storable := by
  obtain ⟨_, _, _, h⟩ := Json.three_parts h
  simp only [Option.bind_eq_bind, Option.bind_eq_some_iff] at h
  obtain ⟨_, -, fields, hfields, _, -, ⟨⟩⟩ := h
  refine ⟨nofun, nofun, ?_⟩
  intro t ht
  obtain ⟨field, hfield, rfl⟩ := List.mem_map.mp ht
  exact Binding.gives_ty.list.required hfields field hfield

theorem LetDecl.storable {j : Json} {decl : LetDecl} (h : ofJson? j = some decl) :
    (Stmt.letting decl).Storable := by
  obtain ⟨_, _, _, _, h⟩ := Json.four_parts h
  simp only [Option.bind_eq_bind, Option.bind_eq_some_iff] at h
  obtain ⟨_, -, ty, hty, init, hinit, _, -, ⟨⟩⟩ := h
  refine ⟨nofun, by simpa using gives_nodeId.required hinit, ?_⟩
  intro t ht
  exact gives_type.optional hty t (Option.mem_toList.mp ht)

theorem Stmt.storable_of_ofTagged? {form : NodeForm} {name : String} {j : Json} {s : Stmt}
    (h : ofTagged? form name j = some s) : s.Storable := by
  unfold ofTagged? at h
  split at h
  -- One case for each tag, in the order of the reader.
  case h_1 =>
    obtain ⟨stmts, hstmts, rfl⟩ := Option.map_eq_some_iff.mp h
    exact ⟨gives_nodeId.list _ _ hstmts, nofun, nofun⟩
  case h_2 =>
    obtain ⟨decl, hdecl, rfl⟩ := Option.map_eq_some_iff.mp h
    exact FunctionDecl.storable hdecl
  case h_3 =>
    obtain ⟨decl, hdecl, rfl⟩ := Option.map_eq_some_iff.mp h
    exact StructDecl.storable hdecl
  case h_4 =>
    obtain ⟨decl, -, rfl⟩ := Option.map_eq_some_iff.mp h
    exact ⟨nofun, nofun, nofun⟩
  case h_5 =>
    obtain ⟨decl, hdecl, rfl⟩ := Option.map_eq_some_iff.mp h
    exact LetDecl.storable hdecl
  case h_6 =>
    obtain ⟨_, _, _, h⟩ := Json.three_parts h
    simp only [Option.bind_eq_bind, Option.bind_eq_some_iff] at h
    obtain ⟨condition, hcondition, thenBranch, hthen, elseBranch, helse, ⟨⟩⟩ := h
    refine ⟨?_, by simpa using gives_nodeId.required hcondition, nofun⟩
    refine List.forall_mem_cons.mpr ⟨gives_nodeId.required hthen, ?_⟩
    exact fun child hchild => gives_nodeId.optional helse child (Option.mem_toList.mp hchild)
  case h_7 =>
    obtain ⟨_, _, h⟩ := Json.two_parts h
    simp only [Option.bind_eq_bind, Option.bind_eq_some_iff] at h
    obtain ⟨condition, hcondition, body, hbody, ⟨⟩⟩ := h
    exact ⟨by simpa using gives_nodeId.required hbody,
      by simpa using gives_nodeId.required hcondition, nofun⟩
  case h_8 =>
    obtain ⟨_, _, _, _, h⟩ := Json.four_parts h
    simp only [Option.bind_eq_bind, Option.bind_eq_some_iff] at h
    obtain ⟨init, hinit, condition, hcondition, update, hupdate, body, hbody, ⟨⟩⟩ := h
    refine ⟨?_, ?_, nofun⟩
    · refine List.forall_mem_append.mpr ⟨?_, by simpa using gives_nodeId.required hbody⟩
      exact fun child hchild => gives_nodeId.optional hinit child (Option.mem_toList.mp hchild)
    · refine List.forall_mem_cons.mpr ⟨gives_nodeId.required hcondition, ?_⟩
      exact fun child hchild => gives_nodeId.optional hupdate child (Option.mem_toList.mp hchild)
  case h_9 =>
    obtain ⟨value, hvalue, rfl⟩ := Option.map_eq_some_iff.mp h
    refine ⟨nofun, ?_, nofun⟩
    exact fun child hchild => gives_nodeId.option hvalue child (Option.mem_toList.mp hchild)
  case h_10 =>
    obtain ⟨e, he, rfl⟩ := Option.map_eq_some_iff.mp h
    exact ⟨nofun, by simpa using gives_nodeId _ _ he, nofun⟩
  case h_11 => cases h

theorem Stmt.gives_storable (form : NodeForm) : Gives (ofJson? form) Storable := by
  intro j s hj
  unfold ofJson? at hj
  split at hj
  · cases hj
    exact ⟨nofun, nofun, nofun⟩
  · cases hj
    exact ⟨nofun, nofun, nofun⟩
  · split at hj
    · exact storable_of_ofTagged? hj
    · cases hj

/-- Whatever is read as a module can be stored. -/
theorem Module.gives_storable (form : NodeForm) : Gives (ofJson? form) Storable := by
  intro j m hj
  obtain ⟨_, _, _, h⟩ := Json.three_parts hj
  simp only [Option.bind_eq_bind, Option.bind_eq_some_iff] at h
  obtain ⟨_, -, items, hitems, arena, harena, ⟨⟩⟩ := h
  have hnodes : Gives (Arena.ofJson? form) fun arena =>
      (∀ e ∈ arena.exprs.toList, e.Storable) ∧ ∀ s ∈ arena.stmts.toList, s.Storable := by
    intro j arena hj
    obtain ⟨_, _, h⟩ := Json.two_parts hj
    simp only [Option.bind_eq_bind, Option.bind_eq_some_iff] at h
    obtain ⟨exprs, hexprs, stmts, hstmts, ⟨⟩⟩ := h
    exact ⟨(Expr.gives_storable form).list.required hexprs,
      (Stmt.gives_storable form).list.required hstmts⟩
  obtain ⟨hexprs, hstmts⟩ := hnodes.required harena
  exact ⟨gives_nodeId.list.required hitems, hexprs, hstmts⟩

/-! ## What can be stored is read back -/

namespace Json

theorem nodeId?_nat {n : Nat} (h : n < 0x100000000) : (nat n).nodeId? = some n := by
  have hrange : 0 ≤ (n : Int) ∧ (n : Int) < 0x100000000 := by omega
  simp only [nat, nodeId?, nat32?, hrange, and_self, ↓reduceIte, Int.toNat_natCast]

theorem int64?_toInt (value : Int64) : (int value.toInt).int64? = some value := by
  have hrange : -0x8000000000000000 ≤ value.toInt ∧ value.toInt < 0x8000000000000000 :=
    ⟨value.le_toInt, value.toInt_lt⟩
  simp only [int64?, hrange, and_self, ↓reduceIte, Int64.ofInt_toInt]

theorem ofJson?_ofTy {t : Ty} (h : t.Spellable) : Ty.ofJson? (ofTy t) = some t := by
  simp [Ty.ofJson?, ofTy, str?, Ty.parse_text h]

theorem mapM_map_eq_some {α β γ : Type} {f : β → Option γ} {g : α → β} {h : α → γ} {l : List α}
    (hfg : ∀ a ∈ l, f (g a) = some (h a)) : (l.map g).mapM f = some (l.map h) := by
  induction l with
  | nil => rfl
  | cons a rest ih =>
    obtain ⟨ha, hrest⟩ := List.forall_mem_cons.mp hfg
    simp [ha, ih hrest]

variable {α : Type} {read : Json → Option α} {write : α → Json}

theorem list?_map {l : List α} (h : ∀ a ∈ l, read (write a) = some a) :
    (arr (l.map write)).list? read = some l := by
  rw [list?, mapM_map_eq_some h, List.map_id']

theorem list?_ids {l : List Nat} (h : ∀ n ∈ l, n < 0x100000000) :
    (ids l).list? nodeId? = some l :=
  list?_map fun n hn => nodeId?_nat (h n hn)

/-- Nothing is written as `null`, so whatever is there must not be. -/
theorem option?_opt {o : Option α} (hnull : ∀ a, write a ≠ null)
    (h : ∀ a ∈ o, read (write a) = some a) : (opt write o).option? read = some o := by
  cases o with
  | none => rfl
  | some a =>
    have ha := h a rfl
    simp only [opt]
    unfold option?
    split
    · next heq => exact absurd heq (hnull a)
    · rw [ha]
      rfl

theorem option?_optNat {o : Option Nat} (h : ∀ n ∈ o, n < 0x100000000) :
    (opt nat o).option? nodeId? = some o :=
  option?_opt (fun _ => nofun) fun n hn => nodeId?_nat (h n hn)

theorem option?_optTy {o : Option Ty} (h : ∀ t ∈ o, t.Spellable) :
    (opt ofTy o).option? Ty.ofJson? = some o :=
  option?_opt (fun _ => nofun) fun t ht => ofJson?_ofTy (h t ht)

theorem operator?_name {ofName? : String → Option α} {name : String} {op : α}
    (h : ofName? name = some op) : (str name).operator? ofName? = some op := by
  simp [operator?, bareTag?, tagged?, h]

end Json

/-- The one field of this name. -/
theorem Json.filter_name {fields : List (String × Json)} (h : (fields.map Prod.fst).Nodup)
    {f : String × Json} (hf : f ∈ fields) : fields.filter (fun g => g.1 == f.1) = [f] := by
  induction fields with
  | nil => cases hf
  | cons first rest ih =>
    obtain ⟨hfirst, hrest⟩ := List.nodup_cons.mp h
    by_cases hname : first.1 = f.1
    · obtain rfl | hf := List.mem_cons.mp hf
      · have hothers : rest.filter (fun g => g.1 == f.1) = [] := by
          refine List.filter_eq_nil_iff.mpr fun g hg hsame => hfirst ?_
          rw [← beq_iff_eq.mp hsame]
          exact List.mem_map_of_mem hg
        simp [hothers]
      · exact absurd (List.mem_map_of_mem hf) (hname ▸ hfirst)
    · obtain rfl | hf := List.mem_cons.mp hf
      · exact absurd rfl hname
      · rw [List.filter_cons_of_neg (by simpa using hname), ih hrest hf]

/-- An object gives its own fields, in their order. -/
theorem Json.named?_obj {names : List String} {fields : List (String × Json)}
    (hnames : fields.map Prod.fst = names) (h : names.Nodup) :
    (obj fields).named? names = some (fields.map fun f => some f.2) := by
  subst hnames
  refine mapM_map_eq_some fun f hf => ?_
  rw [filter_name h hf]

theorem NodeForm.parts?_obj (form : NodeForm) {names : List String}
    {fields : List (String × Json)} (hnames : fields.map Prod.fst = names) (h : names.Nodup) :
    form.parts? names (.obj fields) = some (fields.map fun f => some f.2) := by
  cases form <;> exact Json.named?_obj hnames h

theorem Json.record?_obj {names : List String} {fields : List (String × Json)}
    (hnames : fields.map Prod.fst = names) (h : names.Nodup) :
    (obj fields).record? names = some (fields.map fun f => some f.2) :=
  Json.named?_obj hnames h

theorem BinaryOp.ofName?_name (op : BinaryOp) : ofName? op.name = some op := by
  cases op <;> decide

theorem PrefixOp.ofName?_name (op : PrefixOp) : ofName? op.name = some op := by
  cases op <;> decide

theorem PostfixOp.ofName?_name (op : PostfixOp) : ofName? op.name = some op := by
  cases op <;> decide

section

variable {α : Type} (read : Json → Option α) (j : Json)

@[simp] theorem Json.required?_some : required? read (some j) = read j := rfl

@[simp] theorem Json.optional?_some : optional? read (some j) = j.option? read := rfl

end

@[simp] theorem Json.str?_str (s : String) : (Json.str s).str? = some s := rfl

@[simp] theorem Json.bool?_bool (b : Bool) : (Json.bool b).bool? = some b := rfl

/-! The bound on node ids is too large to be unfolded. So no step from here on may be left to
definitional equality, which might try. -/

theorem FieldInit.ofJson?_toJson {f : FieldInit} (h : f.value < 0x100000000) :
    ofJson? f.toJson = some f := by
  have hvalue := Json.nodeId?_nat h
  simp -implicitDefEqProofs [ofJson?, toJson, Json.record?_obj, hvalue]

theorem Binding.ofJson?_toJson {b : Binding} (h : b.ty.Spellable) : ofJson? b.toJson = some b := by
  have hty := Json.ofJson?_ofTy h
  simp [ofJson?, toJson, Json.record?_obj, hty]

theorem Expr.ofJson?_tag (form : NodeForm) (name : String) (content : Json) :
    ofJson? form (tag name content) = ofTagged? form name content := rfl

theorem Expr.ofJson?_toJson {e : Expr} (h : e.Storable) (form : NodeForm) :
    ofJson? form e.toJson = some e := by
  obtain ⟨hids, htypes⟩ := h
  have hid : ∀ {id : ExprId}, id ∈ e.children → (nat id).nodeId? = some id :=
    fun hmem => Json.nodeId?_nat (hids _ hmem)
  cases e with
  | ident name => rfl
  | int value => simp [toJson, ofJson?_tag, ofTagged?, Json.int64?_toInt]
  | float value => rfl
  | bool value => rfl
  | char value => simp [toJson, ofJson?_tag, ofTagged?, Json.char?]
  | str content => rfl
  -- From here on parts are read back one by one; what they are made of is in `h`.
  | array elements elementType =>
    have helements : (ids elements).list? Json.nodeId? = some elements := Json.list?_ids hids
    have htype : (opt ofTy elementType).option? Ty.ofJson? = some elementType :=
      Json.option?_optTy fun t ht => htypes t (Option.mem_toList.mpr ht)
    simp -implicitDefEqProofs [toJson, ofJson?_tag, ofTagged?, form.parts?_obj, helements, htype]
  | struct name fields =>
    have hfields : (Json.arr (fields.map FieldInit.toJson)).list? FieldInit.ofJson? = some fields :=
      Json.list?_map fun f hf => FieldInit.ofJson?_toJson (hids f.value (List.mem_map_of_mem hf))
    simp -implicitDefEqProofs [toJson, ofJson?_tag, ofTagged?, form.parts?_obj, hfields]
  | binary op left right =>
    have hop := Json.operator?_name op.ofName?_name
    have hleft : (nat left).nodeId? = some left := hid (by simp)
    have hright : (nat right).nodeId? = some right := hid (by simp)
    simp -implicitDefEqProofs [toJson, ofJson?_tag, ofTagged?, form.parts?_obj, hop, hleft, hright]
  | unary op operand | update op operand =>
    have hop := Json.operator?_name op.ofName?_name
    have hoperand : (nat operand).nodeId? = some operand := hid (by simp)
    simp -implicitDefEqProofs [toJson, ofJson?_tag, ofTagged?, form.parts?_obj, hop, hoperand]
  | call callee args =>
    have hargs : (ids args).list? Json.nodeId? = some args := Json.list?_ids hids
    simp -implicitDefEqProofs [toJson, ofJson?_tag, ofTagged?, form.parts?_obj, hargs]
  | index first second | assign first second =>
    have hfirst : (nat first).nodeId? = some first := hid (by simp)
    have hsecond : (nat second).nodeId? = some second := hid (by simp)
    simp -implicitDefEqProofs [toJson, ofJson?_tag, ofTagged?, form.parts?_obj, hfirst, hsecond]
  | member base name | pointerMember base name =>
    have hbase : (nat base).nodeId? = some base := hid (by simp)
    simp -implicitDefEqProofs [toJson, ofJson?_tag, ofTagged?, form.parts?_obj, hbase]

/-- A tag other than those of the two bare statements. -/
theorem Stmt.ofJson?_tag (form : NodeForm) {name : String} (content : Json)
    (h : name ≠ "Break" ∧ name ≠ "Continue") :
    ofJson? form (tag name content) = ofTagged? form name content := by
  cases content with
  | null => simp [ofJson?, tag, Json.bareTag?, Json.tagged?, h]
  | _ => simp [ofJson?, tag, Json.bareTag?, Json.tagged?]

theorem Stmt.ofJson?_toJson {s : Stmt} (h : s.Storable) (form : NodeForm) :
    ofJson? form s.toJson = some s := by
  obtain ⟨hstmts, hexprs, htypes⟩ := h
  have hstmt : ∀ {id : StmtId}, id ∈ s.stmtChildren → (nat id).nodeId? = some id :=
    fun hmem => Json.nodeId?_nat (hstmts _ hmem)
  have hexpr : ∀ {id : ExprId}, id ∈ s.exprChildren → (nat id).nodeId? = some id :=
    fun hmem => Json.nodeId?_nat (hexprs _ hmem)
  cases s with
  | block stmts =>
    have hids : (ids stmts).list? Json.nodeId? = some stmts := Json.list?_ids hstmts
    simp -implicitDefEqProofs [toJson, ofJson?_tag, ofTagged?, hids]
  | function decl =>
    have hparams : (Json.arr (decl.params.map Binding.toJson)).list? Binding.ofJson? =
        some decl.params :=
      Json.list?_map fun b hb =>
        Binding.ofJson?_toJson (htypes _ (List.mem_append_left _ (List.mem_map_of_mem hb)))
    have hresult : Ty.ofJson? (ofTy decl.result) = some decl.result :=
      Json.ofJson?_ofTy (htypes _ (List.mem_append_right _ (List.mem_singleton_self _)))
    have hbody : (nat decl.body).nodeId? = some decl.body := hstmt (by simp)
    simp -implicitDefEqProofs [toJson, ofJson?_tag, ofTagged?, FunctionDecl.ofJson?,
      Json.record?_obj, hparams, hresult, hbody]
  | struct decl =>
    have hfields : (Json.arr (decl.fields.map Binding.toJson)).list? Binding.ofJson? =
        some decl.fields :=
      Json.list?_map fun b hb => Binding.ofJson?_toJson (htypes _ (List.mem_map_of_mem hb))
    simp [toJson, ofJson?_tag, ofTagged?, StructDecl.ofJson?, Json.record?_obj, hfields]
  | importing decl =>
    have hnames : (Json.arr (decl.names.map .str)).list? Json.str? = some decl.names :=
      Json.list?_map fun _ _ => rfl
    simp [toJson, ofJson?_tag, ofTagged?, ImportDecl.ofJson?, Json.record?_obj, hnames]
  | letting decl =>
    have hty : (opt ofTy decl.ty).option? Ty.ofJson? = some decl.ty :=
      Json.option?_optTy fun t ht => htypes t (Option.mem_toList.mpr ht)
    have hinit : (nat decl.init).nodeId? = some decl.init := hexpr (by simp)
    simp -implicitDefEqProofs [toJson, ofJson?_tag, ofTagged?, LetDecl.ofJson?, Json.record?_obj,
      hty, hinit]
  | cond condition thenBranch elseBranch =>
    have hcondition : (nat condition).nodeId? = some condition := hexpr (by simp)
    have hthen : (nat thenBranch).nodeId? = some thenBranch := hstmt (by simp)
    have helse : (opt nat elseBranch).option? Json.nodeId? = some elseBranch :=
      Json.option?_optNat fun id hid => hstmts id (by simp_all)
    simp -implicitDefEqProofs [toJson, ofJson?_tag, ofTagged?, form.parts?_obj, hcondition, hthen,
      helse]
  | whileLoop condition body =>
    have hcondition : (nat condition).nodeId? = some condition := hexpr (by simp)
    have hbody : (nat body).nodeId? = some body := hstmt (by simp)
    simp -implicitDefEqProofs [toJson, ofJson?_tag, ofTagged?, form.parts?_obj, hcondition, hbody]
  | forLoop init condition update body =>
    have hinit : (opt nat init).option? Json.nodeId? = some init :=
      Json.option?_optNat fun id hid => hstmts id (by simp_all)
    have hcondition : (nat condition).nodeId? = some condition := hexpr (by simp)
    have hupdate : (opt nat update).option? Json.nodeId? = some update :=
      Json.option?_optNat fun id hid => hexprs id (by simp_all)
    have hbody : (nat body).nodeId? = some body := hstmt (by simp)
    simp -implicitDefEqProofs [toJson, ofJson?_tag, ofTagged?, form.parts?_obj, hinit, hcondition,
      hupdate, hbody]
  | ret value =>
    have hvalue : (opt nat value).option? Json.nodeId? = some value :=
      Json.option?_optNat fun id hid => hexprs id (by simp_all)
    simp -implicitDefEqProofs [toJson, ofJson?_tag, ofTagged?, hvalue]
  | breakLoop => rfl
  | continueLoop => rfl
  | expr e =>
    have he : (nat e).nodeId? = some e := hexpr (by simp)
    simp -implicitDefEqProofs [toJson, ofJson?_tag, ofTagged?, he]

/-- A module that can be stored is read back from its stored form. -/
theorem Module.ofJson?_toJson {m : Module} (h : m.Storable) (form : NodeForm) :
    ofJson? form m.toJson = some m := by
  have hitems : (ids m.items).list? Json.nodeId? = some m.items := Json.list?_ids h.items
  have hexprs : (Json.arr (m.arena.exprs.toList.map Expr.toJson)).list? (Expr.ofJson? form) =
      some m.arena.exprs.toList :=
    Json.list?_map fun e he => Expr.ofJson?_toJson (h.exprs e he) form
  have hstmts : (Json.arr (m.arena.stmts.toList.map Stmt.toJson)).list? (Stmt.ofJson? form) =
      some m.arena.stmts.toList :=
    Json.list?_map fun s hs => Stmt.ofJson?_toJson (h.stmts s hs) form
  simp -implicitDefEqProofs [ofJson?, toJson, Arena.ofJson?, Json.record?_obj, hitems, hexprs,
    hstmts]

end WasmBackend
