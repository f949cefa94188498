import WasmBackend.Build.Load
import WasmBackend.Proofs.Stored.Text
import WasmBackend.Proofs.Stored.Values

/-!
# Stored modules

Many values are read as the same module, and one of them is what the module is written as. Reading
that one gives the module again (`stored_module_reads_back`), by itself and from its text, so that
whatever was handed over loosely is canonical after one round.

Values are enough for the first part. For the text, every number in the stored form has to survive
being written: ids and integers always do, because they fit a word, and doubles are assumed to,
since the reader of numbers rounds more than once.
-/

namespace WasmBackend

/-! ## The text of a stored module -/

namespace Json.Writable

theorem field {name : String} {j : Json} {fields : List (String × Json)} (hj : j.Writable)
    (hfields : (Json.obj fields).Writable) : (Json.obj ((name, j) :: fields)).Writable := by
  cases hfields with
  | obj hfields => exact .obj (List.forall_mem_cons.mpr ⟨hj, hfields⟩)

theorem noFields : (Json.obj []).Writable := .obj nofun

theorem tag {name : String} {j : Json} (hj : j.Writable) : (Json.tag name j).Writable :=
  .field hj .noFields

theorem nat {n : Nat} (h : n < 0x100000000) : (Json.nat n).Writable := by
  refine .int ⟨?_, ?_⟩ <;> omega

theorem map {α : Type} {write : α → Json} {l : List α} (h : ∀ a ∈ l, (write a).Writable) :
    (Json.arr (l.map write)).Writable := by
  refine .arr fun j hj => ?_
  obtain ⟨a, ha, rfl⟩ := List.mem_map.mp hj
  exact h a ha

theorem ids {l : List Nat} (h : ∀ n ∈ l, n < 0x100000000) : (Json.ids l).Writable :=
  .map fun n hn => .nat (h n hn)

theorem opt {α : Type} {write : α → Json} {o : Option α} (h : ∀ a ∈ o, (write a).Writable) :
    (Json.opt write o).Writable := by
  cases o with
  | none => exact .null
  | some a => exact h a rfl

theorem optNat {o : Option Nat} (h : ∀ n ∈ o, n < 0x100000000) :
    (Json.opt Json.nat o).Writable :=
  .opt fun n hn => .nat (h n hn)

theorem optTy (o : Option Ty) : (Json.opt Json.ofTy o).Writable := .opt fun t _ => .str t.text

end Json.Writable

theorem Binding.writable_toJson (b : Binding) : b.toJson.Writable :=
  .field (.str b.name) (.field (.str b.ty.text) .noFields)

theorem FieldInit.writable_toJson {f : FieldInit} (h : f.value < 0x100000000) :
    f.toJson.Writable :=
  .field (.str f.name) (.field (.nat h) .noFields)

theorem Expr.writable_toJson {e : Expr} (h : e.Storable)
    (hfloat : ∀ x, e = .float x → Json.ReadsBack x) : e.toJson.Writable := by
  have hid : ∀ {id : ExprId}, id ∈ e.children → (Json.nat id).Writable :=
    fun hmem => .nat (h.ids _ hmem)
  cases e with
  | ident name => exact .tag (.str name)
  | int value =>
    refine .tag (.int ⟨value.le_toInt, ?_⟩)
    have hlt := value.toInt_lt
    omega
  | float value => exact .tag (.float (hfloat value rfl))
  | bool value => exact .tag (.bool value)
  | char value => exact .tag (.str _)
  | str content => exact .tag (.str content)
  | array elements elementType =>
    exact .tag (.field (.ids h.ids) (.field (.optTy elementType) .noFields))
  | struct name fields =>
    have hfields : (Json.arr (fields.map FieldInit.toJson)).Writable :=
      .map fun f hf => FieldInit.writable_toJson (h.ids f.value (List.mem_map_of_mem hf))
    exact .tag (.field (.str name) (.field hfields .noFields))
  | binary op left right =>
    have hleft : (Json.nat left).Writable := hid (by simp)
    have hright : (Json.nat right).Writable := hid (by simp)
    exact .tag (.field (.str op.name) (.field hleft (.field hright .noFields)))
  | unary op operand | update op operand =>
    have hoperand : (Json.nat operand).Writable := hid (by simp)
    exact .tag (.field (.str op.name) (.field hoperand .noFields))
  | call callee args => exact .tag (.field (.str callee) (.field (.ids h.ids) .noFields))
  | index first second | assign first second =>
    have hfirst : (Json.nat first).Writable := hid (by simp)
    have hsecond : (Json.nat second).Writable := hid (by simp)
    exact .tag (.field hfirst (.field hsecond .noFields))
  | member base name | pointerMember base name =>
    have hbase : (Json.nat base).Writable := hid (by simp)
    exact .tag (.field hbase (.field (.str name) .noFields))

theorem Stmt.writable_toJson {s : Stmt} (h : s.Storable) : s.toJson.Writable := by
  have hstmt : ∀ {id : StmtId}, id ∈ s.stmtChildren → (Json.nat id).Writable :=
    fun hmem => .nat (h.stmtIds _ hmem)
  have hexpr : ∀ {id : ExprId}, id ∈ s.exprChildren → (Json.nat id).Writable :=
    fun hmem => .nat (h.exprIds _ hmem)
  cases s with
  | block stmts => exact .tag (.ids h.stmtIds)
  | function decl =>
    have hbody : (Json.nat decl.body).Writable := hstmt (by simp)
    exact .tag (.field (.str decl.name) (.field (.map fun b _ => b.writable_toJson)
      (.field (.str decl.result.text) (.field hbody (.field (.bool decl.exported) .noFields)))))
  | struct decl =>
    exact .tag (.field (.str decl.name) (.field (.map fun b _ => b.writable_toJson)
      (.field (.bool decl.exported) .noFields)))
  | importing decl =>
    exact .tag (.field (.str decl.source) (.field (.map fun name _ => .str name) .noFields))
  | letting decl =>
    have hinit : (Json.nat decl.init).Writable := hexpr (by simp)
    exact .tag (.field (.str decl.name) (.field (.optTy decl.ty)
      (.field hinit (.field (.bool decl.exported) .noFields))))
  | cond condition thenBranch elseBranch =>
    have hcondition : (Json.nat condition).Writable := hexpr (by simp)
    have hthen : (Json.nat thenBranch).Writable := hstmt (by simp)
    have helse : (Json.opt Json.nat elseBranch).Writable :=
      .optNat fun id hid => h.stmtIds id (by simp_all)
    exact .tag (.field hcondition (.field hthen (.field helse .noFields)))
  | whileLoop condition body =>
    have hcondition : (Json.nat condition).Writable := hexpr (by simp)
    have hbody : (Json.nat body).Writable := hstmt (by simp)
    exact .tag (.field hcondition (.field hbody .noFields))
  | forLoop init condition update body =>
    have hinit : (Json.opt Json.nat init).Writable :=
      .optNat fun id hid => h.stmtIds id (by simp_all)
    have hcondition : (Json.nat condition).Writable := hexpr (by simp)
    have hupdate : (Json.opt Json.nat update).Writable :=
      .optNat fun id hid => h.exprIds id (by simp_all)
    have hbody : (Json.nat body).Writable := hstmt (by simp)
    exact .tag (.field hinit (.field hcondition (.field hupdate (.field hbody .noFields))))
  | ret value =>
    exact .tag (.optNat fun id hid => h.exprIds id (by simp_all))
  | breakLoop => exact .str "Break"
  | continueLoop => exact .str "Continue"
  | expr e => exact .tag (hexpr (by simp))

/-- The stored form of a module has a text if its doubles have. -/
theorem Module.writable_toJson {m : Module} (h : m.Storable)
    (hfloats : ∀ x, Expr.float x ∈ m.arena.exprs.toList → Json.ReadsBack x) :
    m.toJson.Writable := by
  have hexprs : (Json.arr (m.arena.exprs.toList.map Expr.toJson)).Writable := by
    refine .map fun e he => Expr.writable_toJson (h.exprs e he) ?_
    rintro x rfl
    exact hfloats x he
  have hstmts : (Json.arr (m.arena.stmts.toList.map Stmt.toJson)).Writable :=
    .map fun s hs => Stmt.writable_toJson (h.stmts s hs)
  refine .field (.str m.name) (.field (.ids h.items) (.field ?_ .noFields))
  exact .field hexprs (.field hstmts .noFields)

/-! ## Reading again -/

/-- A module that was read, from whatever spelling of it, is read from its stored form, as a value
and as a text, and written as the same value again. -/
theorem stored_module_reads_back {form : NodeForm} {j : Json} {m : Module}
    (h : Module.ofJson? form j = some m) :
    (∀ form', Module.ofJson? form' m.toJson = some m) ∧
      (∀ form', (Module.ofJson? form' m.toJson).map Module.toJson = some m.toJson) ∧
      ((∀ x, Expr.float x ∈ m.arena.exprs.toList → Json.ReadsBack x) →
        Json.parse? (Json.render m.toJson) = some m.toJson ∧
          Module.parse? (Json.render m.toJson) = some m) := by
  have hstorable : m.Storable := Module.gives_storable form j m h
  have hread : ∀ form', Module.ofJson? form' m.toJson = some m := Module.ofJson?_toJson hstorable
  refine ⟨hread, fun form' => ?_, fun hfloats => ?_⟩
  · rw [hread form', Option.map_some]
  · have htext := Json.parse?_render (Module.writable_toJson hstorable hfloats)
    refine ⟨htext, ?_⟩
    rw [Module.parse?, htext, Option.bind_some, hread]

/-- A module as it might be handed over: the arena is an array, a field is unknown, an optional one
is missing, a type has white space, a whole number stands for a double, and an operator tags
`null`. -/
def loose : Json :=
  .obj [("name", .str "shifted"), ("comment", .null), ("items", .arr [.int 0]),
    ("arena", .arr [
      .arr [
        .obj [("Float", .int 3)],
        .obj [("Prefix", .obj [("op", .obj [("Neg", .null)]), ("operand", .int 0)])],
        .obj [("Array", .obj [("elements", .arr [.int 0, .int 1])])]],
      .arr [
        .obj [("Let", .obj [("name", .str "table"), ("ty", .str " * f32 [] "), ("init", .int 2),
          ("exported", .bool false)])]]])]

/-- The module that it is read as. -/
def shifted : Module where
  name := "shifted"
  items := [0]
  arena := {
    exprs := #[.float (Binary64.ofInt 3), .unary .neg 0, .array [0, 1] none]
    stmts := #[.letting ⟨"table", some (.pointer (.array .f32)), 2, false⟩] }

theorem Json.readsBack_three : ReadsBack (Binary64.ofInt 3) := by
  have htext : floatText (Binary64.ofInt 3) = "3.0" := by decide +kernel
  have hdouble : (⟨false, [3], [0], none⟩ : NumberLiteral).toBinary64? =
      some (Binary64.ofInt 3) := by decide +kernel
  have hread : number? "3.0".toList =
      some ((⟨false, [3], [0], none⟩ : NumberLiteral).toJson, []) := rfl
  have hjson : (⟨false, [3], [0], none⟩ : NumberLiteral).toJson = .float (Binary64.ofInt 3) := by
    rw [NumberLiteral.toJson, hdouble]
    rfl
  rw [ReadsBack, htext, hread, hjson]

/-- It is read back from its stored form, which is not the form it came in. -/
theorem shifted_reads_back :
    Module.ofJson? .named loose = some shifted ∧
      (∀ form, Module.ofJson? form shifted.toJson = some shifted) ∧
      Module.parse? (Json.render shifted.toJson) = some shifted := by
  have hloose : Module.ofJson? .named loose = some shifted := by decide +kernel
  obtain ⟨hread, -, htext⟩ := stored_module_reads_back hloose
  refine ⟨hloose, hread, (htext ?_).2⟩
  intro x hx
  have hx : x = Binary64.ofInt 3 := by simpa [shifted] using hx
  rw [hx]
  exact Json.readsBack_three

end WasmBackend
