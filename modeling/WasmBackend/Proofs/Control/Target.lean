import WasmBackend.Proofs.Control.Run

/-!
# Running lowered code

`Body.exec` runs blocks, loops, branches, conditionals and returns on a machine whose steps are the
pieces of `Code` between them. A branch is a jump to its label. It is caught by the innermost
construct around it that carries the label: a block is left, a loop is entered again. A conditional
carries no label, and whether it is declared to yield a value makes no difference to where control
goes.

An empty piece of code holds no instruction, so it is no step. What goes on inside a step is left to
the machine.
-/

namespace WasmBackend

namespace Run

variable {ε ι σ : Type} [DecidableEq ι]

/-- Runs a body again each time it jumps to this target. The bound counts the rounds. -/
def repeating (target : ι) (body : Nat → σ → Run ε ι σ) : Nat → σ → Run ε ι σ
  | 0, _ => ended .unfinished
  | n + 1, s => (body (n + 1) s).onJump target (repeating target body n)

theorem extends_repeating (target : ι) {body : Nat → σ → Run ε ι σ}
    (hbody : ∀ n s, (body n s).Extends (body (n + 1) s)) :
    ∀ n s, (repeating target body n s).Extends (repeating target body (n + 1) s) := by
  intro n
  induction n with
  | zero => intro s; exact extends_of_unfinished _
  | succ n ih => intro s; exact (hbody (n + 1) s).onJump target ih

end Run

namespace Body

variable {σ : Type} (m : AtomicMachine σ)

/-- Runs a piece of code, unless there is none. -/
def computing (code : Code) (s : σ) : Run Step Label σ :=
  if code = .nil then .ended (.normal s) else m.perform id code s

/-- Runs code, with at most so many rounds in a row of each of its loops. -/
def exec : Body → Nat → σ → Run Step Label σ
  | done, _, s => .ended (.normal s)
  | run code rest, n, s => (computing m code s).andThen (exec rest n)
  | block label inner rest, n, s => ((exec inner n s).landing label).andThen (exec rest n)
  | loop label inner rest, n, s => (Run.repeating label (exec inner) n s).andThen (exec rest n)
  | branch label _, _, s => .ended (.jump label s)
  | branchUnless condition label rest, n, s =>
    m.branchOn id condition s fun holds s =>
      if holds then exec rest n s else .ended (.jump label s)
  | cond condition _ thenArm rest, n, s =>
    (m.branchOn id condition s fun holds s =>
      if holds then exec thenArm n s else .ended (.normal s)).andThen (exec rest n)
  | condElse condition _ thenArm elseArm rest, n, s =>
    (m.branchOn id condition s fun holds s =>
      if holds then exec thenArm n s else exec elseArm n s).andThen (exec rest n)
  | ret value _, _, s => (computing m value s).andThen fun s => .ended (.returned s)
  | unreachable _, _, _ => .ended .trapped

theorem branchOn_andThen {ε ι : Type} (mark : Step → ε) (code : Code) (s : σ)
    (next : Bool → σ → Run ε ι σ) (k : σ → Run ε ι σ) :
    (m.branchOn mark code s next).andThen k =
      m.branchOn mark code s fun holds s => (next holds s).andThen k := by
  unfold AtomicMachine.branchOn
  split
  · exact Run.after_andThen _ _ _
  · rfl

/-- Code in sequence runs in sequence. -/
theorem exec_append (a b : Body) (n : Nat) (s : σ) :
    (a ++ b).exec m n s = (a.exec m n s).andThen (b.exec m n) := by
  have happ : ∀ c d : Body, c ++ d = c.append d := fun _ _ => rfl
  induction a generalizing n s with
  | done => rfl
  | run code rest ih | block label inner rest _ ih | loop label inner rest _ ih
  | cond condition result thenArm rest _ ih
  | condElse condition result thenArm elseArm rest _ _ ih =>
    simp only [happ, append, exec, Run.andThen_assoc] at ih ⊢
    exact congrArg _ (funext fun s => ih n s)
  | branch label rest => rfl
  | branchUnless condition label rest ih =>
    simp only [happ, append, exec, branchOn_andThen] at ih ⊢
    refine congrArg _ (funext fun holds => funext fun s => ?_)
    cases holds with
    | true => simpa using ih n s
    | false => rfl
  | ret value rest =>
    simp only [happ, append, exec, Run.andThen_assoc]
    rfl
  | unreachable rest => rfl

/-- A larger bound only continues runs that were broken off. -/
theorem exec_extends (b : Body) (n : Nat) (s : σ) :
    (b.exec m n s).Extends (b.exec m (n + 1) s) := by
  induction b generalizing n s with
  | done | branch label rest | ret value rest | unreachable rest => exact Run.Extends.refl _
  | run code rest ih => exact (Run.Extends.refl _).andThen fun s => ih n s
  | block label inner rest ihInner ih =>
    exact ((ihInner n s).landing label).andThen fun s => ih n s
  | loop label inner rest ihInner ih =>
    exact (Run.extends_repeating label ihInner n s).andThen fun s => ih n s
  | branchUnless condition label rest ih =>
    refine Run.extends_branchOn m _ _ _ fun holds s => ?_
    cases holds with
    | true => exact ih n s
    | false => exact Run.Extends.refl _
  | cond condition result thenArm rest ihThen ih =>
    refine (Run.extends_branchOn m _ _ _ fun holds s => ?_).andThen fun s => ih n s
    cases holds with
    | true => exact ihThen n s
    | false => exact Run.Extends.refl _
  | condElse condition result thenArm elseArm rest ihThen ihElse ih =>
    refine (Run.extends_branchOn m _ _ _ fun holds s => ?_).andThen fun s => ih n s
    cases holds with
    | true => exact ihThen n s
    | false => exact ihElse n s

end Body

end WasmBackend
