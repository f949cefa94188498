import WasmBackend.Proofs.Control.Lowered
import WasmBackend.Proofs.Control.Replay

/-!
# The pieces of lowered code

Control flow apart, a lowered body is a sequence of pieces of straight code (`Body.pieces`). They
are the codes of the leaves of the source, in the order of the text, each for the purpose of its
leaf and in the frame that the lets before it have uncovered (`Lowers.emits`). What holds of the
code of every leaf holds of every piece, so nothing about pieces needs an induction on statements of
its own. What the leaves uncover is all that lowering changes about the frame (`Lowers.frame_eq`).

Where the pieces stand in the control flow is not looked at here.
-/

namespace WasmBackend

open Lower Source

/-! ## Pieces -/

/-- What a piece of code is there for. -/
inductive Purpose where
  | effect
  | condition
  | result
  deriving DecidableEq

def Leaf.purpose : Leaf → Purpose
  | .effect _ | .binding _ => .effect
  | .condition _ => .condition
  | .result _ => .result

namespace Body

/-- The straight code of a body, in the order of the text. A `return` without a value has none. -/
def pieces : Body → List (Purpose × Code)
  | .done => []
  | .run code rest => (.effect, code) :: rest.pieces
  | .block _ inner rest | .loop _ inner rest => inner.pieces ++ rest.pieces
  | .branch _ rest | .unreachable rest => rest.pieces
  | .branchUnless condition _ rest => (.condition, condition) :: rest.pieces
  | .cond condition _ thenArm rest => (.condition, condition) :: (thenArm.pieces ++ rest.pieces)
  | .condElse condition _ thenArm elseArm rest =>
    (.condition, condition) :: (thenArm.pieces ++ (elseArm.pieces ++ rest.pieces))
  | .ret value rest => if value = .nil then rest.pieces else (.result, value) :: rest.pieces

@[simp] theorem pieces_append (a b : Body) : (a ++ b).pieces = a.pieces ++ b.pieces := by
  show (a.append b).pieces = _
  induction a with
  | done => rfl
  | ret value rest ih =>
    simp only [append, pieces, ih]
    split <;> rfl
  | _ => simp_all [append, pieces]

/-- The end that a body gets is no piece. -/
theorem pieces_close (body : Body) : (body ++ .unreachable .done).pieces = body.pieces := by
  rw [pieces_append]
  exact List.append_nil _

theorem pieces_closedArm (arena : Arena) (arm : StmtId) (yields : Bool) (body : Body) :
    (closedArm arena arm yields body).pieces = body.pieces := by
  unfold closedArm
  split
  · exact body.pieces_close
  · rfl

theorem pieces_afterCond (yields tail : Bool) : (afterCond yields tail).pieces = [] := by
  unfold afterCond
  split <;> rfl

theorem pieces_loopBody (labels : LoopLabels) (code : Code) (inner step : Body) :
    (loopBody labels code inner step).pieces =
      (.condition, code) :: (inner.pieces ++ step.pieces) := by
  simp [loopBody, loopRound, pieces]

/-- All code is in the pieces. -/
theorem exists_piece {body : Body} {code : Code} (h : code ∈ body.codes) :
    code = .nil ∨ ∃ purpose, (purpose, code) ∈ body.pieces := by
  induction body with
  | done => cases h
  | ret value rest ih =>
    by_cases hvalue : value = .nil
    · simp only [codes, List.mem_cons] at h
      simp only [pieces, if_pos hvalue]
      exact h.elim (fun heq => .inl (heq.trans hvalue)) ih
    · simp only [codes, List.mem_cons] at h
      simp only [pieces, if_neg hvalue, List.mem_cons]
      rcases h with rfl | h
      · exact .inr ⟨_, .inl rfl⟩
      · rcases ih h with hnil | ⟨purpose, hmem⟩
        · exact .inl hnil
        · exact .inr ⟨purpose, .inr hmem⟩
  | _ =>
    simp only [codes, List.mem_cons, List.mem_append] at h
    simp only [pieces, List.mem_cons, List.mem_append, Prod.mk.injEq]
    grind

end Body

/-! ## Leaves, one after the other -/

/-- These pieces are those of the leaves, the first in this frame and each of the others in the
frame in which the names of the leaves before it are visible as well. All of them lead to the second
frame. -/
inductive Emits (info : ModuleInfo) (arena : Arena) :
    Frame → List Leaf → List (Purpose × Code) → Frame → Prop
  | nil {f : Frame} : Emits info arena f [] [] f
  | cons {f g : Frame} {leaf : Leaf} {code : Code} {leaves : List Leaf}
      {pieces : List (Purpose × Code)} (hcode : leafCode info arena f leaf = .ok code)
      (hrest : Emits info arena (f.revealAll (leafNames info arena leaf)) leaves pieces g) :
      Emits info arena f (leaf :: leaves) ((leaf.purpose, code) :: pieces) g

namespace Emits

variable {info : ModuleInfo} {arena : Arena} {f g : Frame} {leaves later : List Leaf}
variable {pieces pieces' : List (Purpose × Code)}

theorem one {leaf : Leaf} {code : Code} (h : leafCode info arena f leaf = .ok code) :
    Emits info arena f [leaf] [(leaf.purpose, code)] (f.revealAll (leafNames info arena leaf)) :=
  .cons h .nil

theorem append {g' : Frame} (h : Emits info arena f leaves pieces g)
    (hlater : Emits info arena g later pieces' g') :
    Emits info arena f (leaves ++ later) (pieces ++ pieces') g' := by
  induction h with
  | nil => exact hlater
  | cons hcode _ ih => exact .cons hcode (ih hlater)

theorem frame_eq (h : Emits info arena f leaves pieces g) :
    g = f.revealAll (leaves.flatMap (leafNames info arena)) := by
  induction h with
  | nil => rfl
  | cons _ _ ih => rw [List.flatMap_cons, Frame.revealAll_append, ih]

/-- The loops around the leaves do not matter. -/
theorem withLoops (h : Emits info arena f leaves pieces g) (loops : List LoopLabels) :
    Emits info arena { f with loops := loops } leaves pieces { g with loops := loops } := by
  induction h with
  | nil => exact .nil
  | cons hcode _ ih =>
    refine .cons ((leafCode_withLoops info arena _ loops _).trans hcode) ?_
    rw [Frame.revealAll_withLoops]
    exact ih

/-- Leaves in a loop, seen from outside of it. -/
theorem exitLoop {labels : LoopLabels} (h : Emits info arena (f.enterLoop labels) leaves pieces g) :
    Emits info arena f leaves pieces g.exitLoop := by
  have hloops : g.loops = labels :: f.loops := by
    rw [h.frame_eq, Frame.revealAll_loops]
    rfl
  unfold Frame.exitLoop
  rw [hloops]
  exact h.withLoops f.loops

theorem length_eq (h : Emits info arena f leaves pieces g) : pieces.length = leaves.length := by
  induction h with
  | nil => rfl
  | cons _ _ ih => exact congrArg (· + 1) ih

/-- One of the leaves, in the frame that those before it leave. -/
theorem getElem? (h : Emits info arena f leaves pieces g) {i : Nat} {leaf : Leaf}
    {piece : Purpose × Code} (hleaf : leaves[i]? = some leaf) (hpiece : pieces[i]? = some piece) :
    piece.1 = leaf.purpose ∧
      leafCode info arena (f.revealAll ((leaves.take i).flatMap (leafNames info arena))) leaf =
        .ok piece.2 := by
  induction h generalizing i with
  | nil => cases hleaf
  | cons hfirst _ ih =>
    cases i with
    | zero =>
      cases hleaf
      cases hpiece
      exact ⟨rfl, hfirst⟩
    | succ i =>
      rw [List.take_succ_cons, List.flatMap_cons, Frame.revealAll_append]
      exact ih hleaf hpiece

/-- Every leaf has its piece, lowered in a frame with the variables of this one. -/
theorem piece_of_mem (h : Emits info arena f leaves pieces g) {leaf : Leaf}
    (hleaf : leaf ∈ leaves) :
    ∃ pending code, (leaf.purpose, code) ∈ pieces ∧
      leafCode info arena { f with pending } leaf = .ok code := by
  obtain ⟨i, hi, rfl⟩ := List.getElem_of_mem hleaf
  have hlt : i < pieces.length := h.length_eq ▸ hi
  obtain ⟨hpurpose, hcode⟩ :=
    h.getElem? (List.getElem?_eq_getElem hi) (List.getElem?_eq_getElem hlt)
  rw [Frame.revealAll_eq] at hcode
  exact ⟨_, _, hpurpose ▸ List.getElem_mem hlt, hcode⟩

/-- Every piece comes from a leaf, lowered in a frame with the variables of this one. -/
theorem leaf_of_mem (h : Emits info arena f leaves pieces g) {piece : Purpose × Code}
    (hpiece : piece ∈ pieces) :
    ∃ leaf ∈ leaves, ∃ pending, leafCode info arena { f with pending } leaf = .ok piece.2 := by
  obtain ⟨i, hi, rfl⟩ := List.getElem_of_mem hpiece
  have hlt : i < leaves.length := h.length_eq ▸ hi
  obtain ⟨-, hcode⟩ := h.getElem? (List.getElem?_eq_getElem hlt) (List.getElem?_eq_getElem hi)
  rw [Frame.revealAll_eq] at hcode
  exact ⟨_, List.getElem_mem hlt, _, hcode⟩

end Emits

section

variable {info : ModuleInfo} {arena : Arena} {ids : List StmtId} {tail : Bool} {s s' : LowerState}
variable {body : Body} {f : Frame}

/-- Lowered statements consist of the pieces of their leaves, and leave the frame to which these
lead. The induction is on the rules of lowering. -/
theorem Lowers.emits (h : Lowers info arena ids tail s body s') :
    Emits info arena s.frame (ids.flatMap (leaves arena)) body.pieces s'.frame := by
  induction h with
  | nil => exact .nil
  | cons _ _ ihFirst ihRest =>
    rw [Body.pieces_append, ← List.singleton_append, List.flatMap_append]
    exact ihFirst.append ihRest
  | block hs hlt _ ih =>
    rw [List.flatMap_singleton, leaves_block hs hlt]
    exact ih
  | cond hs hlt hcode _ ih =>
    rw [List.flatMap_singleton] at ih
    rw [List.flatMap_singleton, leaves_cond hs hlt (by simp), Body.pieces, Body.pieces_closedArm,
      Body.pieces_afterCond]
    exact .cons hcode (ih.append .nil)
  | condElse hs hthenLt helseLt hcode _ _ ihThen ihElse =>
    have hboth := ihThen.append ihElse
    rw [List.flatMap_singleton] at hboth
    rw [List.flatMap_singleton, leaves_cond hs hthenLt (by simpa using helseLt), Body.pieces,
      Body.pieces_closedArm, Body.pieces_closedArm, Body.pieces_afterCond, List.append_nil]
    exact .cons hcode hboth
  | whileLoop hs hlt hcode _ ih =>
    rw [List.flatMap_singleton] at ih
    rw [List.flatMap_singleton, leaves_whileLoop hs hlt, Body.pieces_loopBody, Body.pieces,
      List.append_nil]
    exact .cons hcode ih.exitLoop
  | @forLoop _ _ _ _ update _ _ _ s₂ _ _ _ step hs hinitLt hlt _ hcode _ hstep ihInit ihBody =>
    rw [List.flatMap_singleton] at ihBody
    rw [List.flatMap_singleton, leaves_forLoop hs hinitLt hlt, Body.pieces_append,
      Body.pieces_loopBody, Body.pieces, Body.pieces, List.append_nil]
    have hupdate : Emits info arena s₂.exit.frame (update.toList.map .effect) step.pieces
        s₂.exit.frame := by
      cases update with
      | none =>
        cases hstep
        exact .nil
      | some e =>
        obtain ⟨code, hcode, rfl⟩ := Compiled.map_ok.mp hstep
        exact .one hcode
    exact ihInit.append (.cons hcode (ihBody.exitLoop.append hupdate))
  | letting hs hcode | expr hs hcode =>
    rw [List.flatMap_singleton, leaves_eq]
    simp only [leavesStep, hs]
    exact .one hcode
  | ret hs hcode =>
    rw [List.flatMap_singleton, leaves_eq, Body.pieces, if_neg (leafCode_ne_nil hcode)]
    simp only [leavesStep, hs]
    exact .one hcode
  | retNothing hs | breakLoop hs _ | continueLoop hs _ =>
    rw [List.flatMap_singleton, leaves_eq]
    simp only [leavesStep, hs]
    exact .nil

/-! ## The frame afterwards -/

/-- Lowering changes nothing about the frame but which locals are visible, and the names that
become visible are those that the statements bind. -/
theorem Lowers.frame_eq (h : Lowers info arena ids tail s body s') :
    s'.frame = s.frame.revealAll (ids.flatMap (boundNames info arena)) := by
  rw [h.emits.frame_eq, List.flatMap_assoc]
  rfl

/-- Lowering leaves the variables of the frame as they are. -/
theorem Lowers.frame_variables (h : Lowers info arena ids tail s body s')
    (hs : ∃ pending loops, s.frame = { f with pending, loops }) :
    ∃ pending loops, s'.frame = { f with pending, loops } := by
  obtain ⟨pending, loops, hframe⟩ := hs
  rw [h.frame_eq, Frame.revealAll_eq, hframe]
  exact ⟨_, _, rfl⟩

/-- Entering a loop leaves the variables as they are. -/
theorem LowerState.enter_frame (h : ∃ pending loops, s.frame = { f with pending, loops })
    (draw : LabelSupply → LoopLabels × LabelSupply) :
    ∃ pending loops, (s.enter draw).frame = { f with pending, loops } := by
  obtain ⟨pending, loops, hframe⟩ := h
  unfold LowerState.enter Frame.enterLoop
  rw [hframe]
  exact ⟨_, _, rfl⟩

end

end WasmBackend
