import WasmBackend.Proofs.Traversal.References
import WasmBackend.Syntax.Builder

/-!
# Modules that are built call by call

Whoever builds a module knows only the ids that were answered, and may give back each of them as
often as it likes. A module that is built so is well formed, in whatever order and with whatever
sharing, as long as there is an id for every node (`Module.built_of_reused_ids`).

What a call does is said once (`Module.Adds`): the node stands under the id that is answered, where
nothing stood before. Arenas only grow (`Module.build_extends`), so that ids that were answered stay
ids of nodes, and a node that refers only to them refers to earlier nodes. Whether what was built
can be compiled is not asked.
-/

namespace WasmBackend

/-! ## One call -/

/-- There is a node under the id. -/
def Arena.Has (arena : Arena) : NodeRef → Prop
  | .expr id => id < arena.exprs.size
  | .stmt id => id < arena.stmts.size

namespace Arena.Extends

variable {a b c : Arena}

theorem refl (a : Arena) : a.Extends a := ⟨fun _ _ h => h, fun _ _ h => h⟩

theorem trans (h : a.Extends b) (h' : b.Extends c) : a.Extends c :=
  ⟨fun id e he => h'.exprs id e (h.exprs id e he), fun id s hs => h'.stmts id s (h.stmts id s hs)⟩

theorem pushStmt (a : Arena) (s : Stmt) : a.Extends (a.pushStmt s) := by
  refine ⟨fun _ _ h => h, fun id s' h => ?_⟩
  obtain ⟨hid, rfl⟩ := Array.getElem?_eq_some_iff.mp h
  simp [Arena.pushStmt, stmt?, Array.getElem?_push, Nat.ne_of_lt hid, hid]

theorem has (h : a.Extends b) {ref : NodeRef} (href : a.Has ref) : b.Has ref := by
  cases ref with
  | expr id =>
    obtain ⟨e, he⟩ := exists_expr href
    exact lt_of_expr (h.exprs id e he)
  | stmt id =>
    obtain ⟨s, hs⟩ := exists_stmt href
    exact (Array.getElem?_eq_some_iff.mp (h.stmts id s hs)).1

/-- A larger arena has no fewer nodes. -/
theorem sizes_le (h : a.Extends b) :
    a.exprs.size ≤ b.exprs.size ∧ a.stmts.size ≤ b.stmts.size := by
  have hexprs : a.Has (.expr b.exprs.size) → b.Has (.expr b.exprs.size) := h.has
  have hstmts : a.Has (.stmt b.stmts.size) → b.Has (.stmt b.stmts.size) := h.has
  exact ⟨Nat.not_lt.mp fun hlt => Nat.lt_irrefl _ (hexprs hlt),
    Nat.not_lt.mp fun hlt => Nat.lt_irrefl _ (hstmts hlt)⟩

end Arena.Extends

namespace Module

/-- What a call makes of a module, if it answers with this id. -/
def Adds (m m' : Module) (ref : NodeRef) : BuilderCall → Prop
  | .expr e => m'.items = m.items ∧
      ∃ id, ref = .expr id ∧ m.arena.expr? id = none ∧ m'.arena.expr? id = some e
  | .stmt s => m'.items = m.items ∧
      ∃ id, ref = .stmt id ∧ m.arena.stmt? id = none ∧ m'.arena.stmt? id = some s
  | .item id => m'.items = m.items ++ [id] ∧ ref = .stmt id ∧ m'.arena = m.arena

variable {m : Module} {call : BuilderCall}

theorem perform_extends (m : Module) (call : BuilderCall) :
    m.arena.Extends (m.perform call).2.arena := by
  cases call with
  | expr e => exact .pushExpr m.arena e
  | stmt s => exact .pushStmt m.arena s
  | item id => exact .refl m.arena

theorem perform_adds (hexprs : (m.perform call).2.arena.exprs.size ≤ idSpace)
    (hstmts : (m.perform call).2.arena.stmts.size ≤ idSpace) :
    m.Adds (m.perform call).2 (m.perform call).1 call := by
  cases call with
  | expr e =>
    have hsize : m.arena.exprs.size < idSpace := by
      simpa [perform, addExpr, Arena.pushExpr, Nat.succ_le_iff] using hexprs
    refine ⟨rfl, _, congrArg _ (Nat.mod_eq_of_lt hsize), ?_, ?_⟩
    · simp [Arena.expr?]
    · simp [perform, addExpr, Arena.pushExpr, Arena.expr?]
  | stmt s =>
    have hsize : m.arena.stmts.size < idSpace := by
      simpa [perform, addStmt, Arena.pushStmt, Nat.succ_le_iff] using hstmts
    refine ⟨rfl, _, congrArg _ (Nat.mod_eq_of_lt hsize), ?_, ?_⟩
    · simp [Arena.stmt?]
    · simp [perform, addStmt, Arena.pushStmt, Arena.stmt?]
  | item id => exact ⟨rfl, rfl, rfl⟩

/-- The id that is answered is the id of a node. -/
theorem Adds.has {m' : Module} {ref : NodeRef} (h : m.Adds m' ref call)
    (hargs : ∀ arg ∈ call.args, m.arena.Has arg) : m'.arena.Has ref := by
  cases call with
  | expr e =>
    obtain ⟨-, id, rfl, -, he⟩ := h
    exact Arena.lt_of_expr he
  | stmt s =>
    obtain ⟨-, id, rfl, -, hs⟩ := h
    exact (Array.getElem?_eq_some_iff.mp hs).1
  | item id =>
    obtain ⟨-, rfl, harena⟩ := h
    rw [harena]
    exact hargs _ (List.mem_singleton_self _)

/-- A call that is given nodes keeps a module well-referenced. -/
theorem WellReferenced.perform (hm : m.WellReferenced)
    (hargs : ∀ arg ∈ call.args, m.arena.Has arg) : (m.perform call).2.WellReferenced := by
  cases call with
  | expr e =>
    refine ⟨hm.items, hm.arena.stmts, ?_, ?_⟩
    · intro id s hs child hchild
      have hleaf : m.arena.Has (.expr child) := hm.arena.leaves id s hs child hchild
      exact (Arena.Extends.pushExpr m.arena e).has hleaf
    · intro id e' he child hchild
      rcases getElem?_push_some he with he | ⟨rfl, rfl⟩
      · exact hm.arena.exprs id e' he child hchild
      · exact hargs (.expr child) (List.mem_map_of_mem hchild)
  | stmt s =>
    refine ⟨?_, ?_, ?_, hm.arena.exprs⟩
    · intro item hitem
      have hold : m.arena.Has (.stmt item) := hm.items item hitem
      exact (Arena.Extends.pushStmt m.arena s).has hold
    · intro id s' hs child hchild
      rcases getElem?_push_some hs with hs | ⟨rfl, rfl⟩
      · exact hm.arena.stmts id s' hs child hchild
      · exact hargs (.stmt child) (List.mem_append_left _ (List.mem_map_of_mem hchild))
    · intro id s' hs child hchild
      rcases getElem?_push_some hs with hs | ⟨rfl, rfl⟩
      · exact hm.arena.leaves id s' hs child hchild
      · exact hargs (.expr child) (List.mem_append_right _ (List.mem_map_of_mem hchild))
  | item id =>
    refine ⟨?_, hm.arena⟩
    intro item hitem
    rcases List.mem_append.mp hitem with hitem | hitem
    · exact hm.items item hitem
    · cases List.mem_singleton.mp hitem
      exact hargs _ (List.mem_singleton_self _)

/-! ## A run of calls -/

/-- The answers to the calls, in order, and the module that they end with. -/
def build (m : Module) : List BuilderCall → List NodeRef × Module
  | [] => ([], m)
  | call :: rest =>
    ((m.perform call).1 :: ((m.perform call).2.build rest).1, ((m.perform call).2.build rest).2)

/-- The module after so many calls. -/
def after (m : Module) (calls : List BuilderCall) (k : Nat) : Module := (m.build (calls.take k)).2

variable {calls : List BuilderCall} {k : Nat}

/-- A run of calls is made of single ones. -/
theorem build_call (h : calls[k]? = some call) :
    m.after calls (k + 1) = ((m.after calls k).perform call).2 ∧
      (m.build calls).1[k]? = some ((m.after calls k).perform call).1 := by
  unfold after
  induction calls generalizing m k with
  | nil => cases h
  | cons first rest ih =>
    cases k with
    | zero =>
      cases h
      exact ⟨rfl, rfl⟩
    | succ k => exact ih h

/-- Later calls leave the nodes alone that there are. -/
theorem build_extends (m : Module) (calls : List BuilderCall) {j k : Nat} (h : j ≤ k) :
    (m.after calls j).arena.Extends (m.after calls k).arena := by
  induction h with
  | refl => exact .refl _
  | @step k _ ih =>
    refine ih.trans ?_
    cases hcall : calls[k]? with
    | none =>
      have hlength := List.getElem?_eq_none_iff.mp hcall
      unfold after
      rw [List.take_of_length_le hlength, List.take_of_length_le (Nat.le_succ_of_le hlength)]
      exact .refl _
    | some call =>
      rw [(build_call hcall).1]
      exact perform_extends _ _

/-- Every id that a call is given was the answer to an earlier call. -/
def GivesBack (answers : List NodeRef) (calls : List BuilderCall) : Prop :=
  ∀ (k : Nat) (hk : k < calls.length), ∀ arg ∈ calls[k].args, arg ∈ answers.take k

/-- Building has come out right: the module is well formed, every call has added what it asked for
under the id that it got, and what there was stayed as it was. -/
structure Built (name : String) (calls : List BuilderCall) : Prop where
  valid : (build { name } calls).2.validate = .ok ()
  added : ∀ k call, calls[k]? = some call → ∃ ref, (build { name } calls).1[k]? = some ref ∧
    (after { name } calls k).Adds (after { name } calls (k + 1)) ref call
  kept : ∀ j k, j ≤ k → (after { name } calls j).arena.Extends (after { name } calls k).arena

/-- Along calls that only give back ids, the module is well-referenced, and what was answered so far
are nodes of it. -/
theorem wellReferenced_after (hm : m.WellReferenced)
    (hids : GivesBack (m.build calls).1 calls)
    (hadds : ∀ k call, calls[k]? = some call → (m.after calls k).Adds
      (m.after calls (k + 1)) ((m.after calls k).perform call).1 call)
    (hk : k ≤ calls.length) : (m.after calls k).WellReferenced ∧
      ∀ ref ∈ (m.build calls).1.take k, (m.after calls k).arena.Has ref := by
  induction k with
  | zero => exact ⟨hm, by simp⟩
  | succ k ih =>
    obtain ⟨hbefore, hnodes⟩ := ih (Nat.le_of_succ_le hk)
    have hcall : calls[k]? = some calls[k] := List.getElem?_eq_getElem hk
    have hargs : ∀ arg ∈ calls[k].args, (m.after calls k).arena.Has arg := by
      intro arg harg
      exact hnodes arg (hids k hk arg harg)
    refine ⟨?_, ?_⟩
    · rw [(build_call hcall).1]
      exact hbefore.perform hargs
    · intro ref href
      rw [List.take_add_one, (build_call hcall).2] at href
      rcases List.mem_append.mp href with href | href
      · exact (build_extends m calls (Nat.le_succ k)).has (hnodes ref href)
      · cases List.mem_singleton.mp href
        exact (hadds k _ hcall).has hargs

/-- Calls that only give back ids build a well-formed module, in which each node stays under the id
that was answered for it. -/
theorem built_of_reused_ids {name : String} {calls : List BuilderCall}
    (hids : GivesBack (build { name } calls).1 calls)
    (hexprs : (build { name } calls).2.arena.exprs.size ≤ idSpace)
    (hstmts : (build { name } calls).2.arena.stmts.size ≤ idSpace) : Built name calls := by
  have hfinished : (build { name } calls).2 = after { name } calls calls.length := by
    rw [after, List.take_length]
  have hadds : ∀ k call, calls[k]? = some call → (after { name } calls k).Adds
      (after { name } calls (k + 1)) ((after { name } calls k).perform call).1 call := by
    intro k call hcall
    obtain ⟨hlt, -⟩ := List.getElem?_eq_some_iff.mp hcall
    obtain ⟨hle, hle'⟩ := (build_extends { name } calls hlt).sizes_le
    rw [← hfinished, (build_call hcall).1] at hle hle'
    rw [(build_call hcall).1]
    exact perform_adds (Nat.le_trans hle hexprs) (Nat.le_trans hle' hstmts)
  have hempty : WellReferenced { name } := validate_ok_iff.mp rfl
  refine ⟨?_, ?_, fun _ _ => build_extends _ _⟩
  · rw [hfinished]
    exact validate_ok_iff.mpr (wellReferenced_after hempty hids hadds (Nat.le_refl _)).1
  · intro k call hcall
    exact ⟨_, (build_call hcall).2, hadds k call hcall⟩

/-- `let x = 2 * 2;` with one operand for both sides, put at the top level and into a function, and
the function twice at the top level. -/
def sharedCalls : List BuilderCall :=
  [.int 2, .binary .mul 0 0, .letting "x" none 1 true, .item 0, .block [0],
    .function "f" [] .void 1 false, .item 2, .item 2]

theorem sharedCalls_built : GivesBack (build { name := "m" } sharedCalls).1 sharedCalls ∧
    (build { name := "m" } sharedCalls).2.items = [0, 2, 2] ∧ Built "m" sharedCalls := by
  have hids : GivesBack (build { name := "m" } sharedCalls).1 sharedCalls := by
    unfold GivesBack
    decide
  exact ⟨hids, rfl, built_of_reused_ids hids (by decide) (by decide)⟩

end Module

end WasmBackend
