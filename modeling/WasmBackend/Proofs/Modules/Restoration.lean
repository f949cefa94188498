import WasmBackend.Proofs.Modules.Parts
import WasmBackend.Proofs.Traversal.Failures

/-!
# What a lowering leaves as it was

Lowering carries state along: the frame of the function with the loops around the current statement,
and below it the stack of frames. A failure ends a lowering anywhere, in a condition, in a body, in
an update, inside any number of loops, and whoever started it goes on with the state as it is then.
So what has been entered must have been left again also where nothing was completed.

That is said of a step by comparing the state it starts with and the state it ends with, whichever
way it ends (`EStateM.Restoring`). Of a frame everything is restored but its locals and which of
them are pending (`Frame.skeleton`), the loops among it. Of the stack all is restored, whatever is
on it, since a frame that is pushed is taken off by its position. The traversals of statements and
modules have shown this on their way, for an arena and any that is like it; here the arena is one.
The supply of labels is left out: it is never given back.
-/

namespace WasmBackend

theorem Frame.loops_eq_of_skeleton {f g : Frame} (h : f.skeleton = g.skeleton) :
    f.loops = g.loops :=
  show f.skeleton.loops = g.skeleton.loops from congrArg Frame.loops h

/-- Writing out what was lowered touches nothing but the writer. -/
theorem Lower.writing_loops (x : LowerM Body) (s : LowerState) :
    (writing x s).2.frame.loops = (EStateM.endState x s).frame.loops := by
  unfold writing EStateM.endState
  cases x s with
  | ok body s' => rfl
  | error e s' => rfl

open Lower in
/-- However the lowering of a statement ends, the loops around it are those it began with, also when
its code has been written out. However the lowering of a function or of a module ends, the stack of
frames is the one it began with, and so of the same depth. A frame that is pushed comes back from
the position it was given, as it has become by then; from the lowering of a function it comes back
with the same name, result, parameters and loops as it was pushed. -/
theorem lowering_restores_state (info : ModuleInfo) (arena : Arena) :
    (∀ id tail s,
      (EStateM.endState (lowerStmt info arena id tail) s).frame.loops = s.frame.loops ∧
      (writing (lowerStmt info arena id tail) s).2.frame.loops = s.frame.loops) ∧
    (∀ name entry s, (EStateM.endState (lowerFunction info arena name entry) s).stack =
      s.stack) ∧
    (∀ memory s, (EStateM.endState (lowerModule memory arena info) s).stack = s.stack) ∧
    (∀ (stack : FrameStack) frame g above,
      (⟨((stack.push frame).2.modify (stack.push frame).1 g).frames ++ above⟩ :
        FrameStack).finish (stack.push frame).1 = (some (g frame), stack)) ∧
    ∀ frame body s code frame' s',
      withFrame frame (lowerInFrame info arena body) s = .ok (code, frame') s' →
      frame'.skeleton = frame.skeleton ∧
        lowerInFrame info arena body ⟨frame, s.labels⟩ = .ok code ⟨frame', s'.labels⟩ := by
  have hself := info.alike_self arena
  refine ⟨?_, ?_, ?_, FrameStack.finish_push, ?_⟩
  · intro id tail s
    have hskeleton : EStateM.Restoring _ s (EStateM.endState (lowerStmt info arena id tail) s) :=
      (lowerStmt_alike hself trivial tail s).2.2
    have hloops := Frame.loops_eq_of_skeleton hskeleton
    exact ⟨hloops, (writing_loops _ s).trans hloops⟩
  · intro name entry s
    exact (lowerFunction_alike hself name trivial s).2.2
  · intro memory s
    exact (lowerModule_alike hself (fun _ _ => trivial) memory s).2.2
  · intro frame body s code frame' s' h
    obtain ⟨after, hlower, rfl, hlabels⟩ := withFrame_ok h
    have hskeleton : EStateM.Restoring _ ⟨frame, s.labels⟩
        (EStateM.endState (lowerInFrame info arena body) ⟨frame, s.labels⟩) :=
      (lowerInFrame_alike hself trivial _).2.2
    rw [EStateM.endState_of_ok hlower] at hskeleton
    refine ⟨hskeleton, ?_⟩
    rw [hlower, ← hlabels]

namespace Spiral

/-- `while (c) { while (d) { missing; } }` -/
def arena : Arena := {
  exprs := #[.ident "c", .ident "d", .ident "missing"]
  stmts := #[.expr 2, .whileLoop 1 0, .whileLoop 0 1,
    .function ⟨"spin", [⟨"c", .i32⟩, ⟨"d", .i32⟩], .void, 2, false⟩] }

def entry : FunctionEntry := ⟨⟨[.i32, .i32], .void⟩, false, 3⟩

def info : ModuleInfo where
  name := "spiral"
  functions := ⟨[("spin", entry)]⟩
  data := .startingAt 16

/-- In a loop of its own, and below a frame that someone has left behind. -/
def frame : Frame where
  name := "spin"
  result := .void
  params := ⟨[("c", ⟨"c", .param, .i32⟩), ("d", ⟨"d", .param, .i32⟩)]⟩
  loops := [(LabelSupply.whileLoop {}).1]

def leftBehind : FrameStack := ⟨[{ name := "caller", result := .i32 }]⟩

end Spiral

open Lower in
/-- The unknown name is met inside two loops, of which both have drawn their labels. -/
theorem spiral_restores :
    (lowerStmt Spiral.info Spiral.arena 2 false).succeeds ⟨Spiral.frame, ⟨1⟩⟩ = false ∧
    (EStateM.endState (lowerStmt Spiral.info Spiral.arena 2 false)
      ⟨Spiral.frame, ⟨1⟩⟩).labels = ⟨3⟩ ∧
    (EStateM.endState (lowerStmt Spiral.info Spiral.arena 2 false)
      ⟨Spiral.frame, ⟨1⟩⟩).frame.loops = [(LabelSupply.whileLoop {}).1] ∧
    (EStateM.endState (lowerFunction Spiral.info Spiral.arena "spin" Spiral.entry)
      ⟨Spiral.leftBehind, ⟨1⟩⟩).labels = ⟨3⟩ ∧
    (EStateM.endState (lowerFunction Spiral.info Spiral.arena "spin" Spiral.entry)
      ⟨Spiral.leftBehind, ⟨1⟩⟩).stack.depth = 1 := by
  obtain ⟨hloops, hstack, -⟩ := lowering_restores_state Spiral.info Spiral.arena
  refine ⟨by decide +kernel, by decide +kernel, ?_, by decide +kernel, ?_⟩
  · exact (hloops 2 false ⟨Spiral.frame, ⟨1⟩⟩).1
  · rw [hstack "spin" Spiral.entry ⟨Spiral.leftBehind, ⟨1⟩⟩]
    rfl

end WasmBackend
