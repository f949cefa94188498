import WasmBackend.Wat.Code

/-!
# Runs

What running a piece of structured code leaves behind: the steps it took and how it ended. Both
sides of the lowering speak of the same runs. A statement jumps by `break` and `continue`, lowered
code jumps to labels, so the kind of jump is a parameter; so is the kind of event, because a run of
a statement also remembers which conditionals it left at their end.

**Steps are opaque.** A piece of `Code` is one step of a machine about which nothing is assumed: it
maps a state to a state, or does not come back (it traps, or calls something that never returns).

A run is bounded: a loop may go round only so many times before the run is broken off as
`unfinished`. Everything below is monotone in that bound (`Run.Extends`): a larger one changes
nothing once the run has ended, and before that it only adds events. So a run that ends within some
bound has one end, and a run that ends within none runs forever.
-/

namespace WasmBackend

/-- One use of a piece of code: for what it does, or for the truth of its value. -/
inductive Step where
  | compute (code : Code)
  | test (code : Code)
  deriving DecidableEq

/-- A machine on which every piece of code is one step. No result means that the step does not come
back. -/
structure AtomicMachine (σ : Type) where
  compute : Code → σ → Option σ
  test : Code → σ → Option (σ × Bool)

/-- How a run ends, with the state that it ends in. -/
inductive RunOutcome (ι σ : Type) where
  | normal (s : σ)
  | jump (target : ι) (s : σ)
  | returned (s : σ)
  /-- A step did not come back. -/
  | aborted
  /-- An `unreachable` was executed. -/
  | trapped
  /-- The bound on loop rounds was used up. -/
  | unfinished
  deriving DecidableEq

/-- The events of a run in their order, and its end. -/
structure Run (ε ι σ : Type) where
  events : List ε
  outcome : RunOutcome ι σ
  deriving DecidableEq

namespace Run

variable {ε ι σ : Type}

/-- Ends at once. -/
def ended (o : RunOutcome ι σ) : Run ε ι σ := ⟨[], o⟩

/-- Puts events before a run. -/
def after (events : List ε) (r : Run ε ι σ) : Run ε ι σ := ⟨events ++ r.events, r.outcome⟩

/-- Goes on where the first run ends normally. -/
def andThen (r : Run ε ι σ) (next : σ → Run ε ι σ) : Run ε ι σ :=
  match r.outcome with
  | .normal s => after r.events (next s)
  | _ => r

/-- Goes on where the first run jumps to this target. -/
def onJump [DecidableEq ι] (r : Run ε ι σ) (target : ι) (next : σ → Run ε ι σ) : Run ε ι σ :=
  match r.outcome with
  | .jump j s => if j = target then after r.events (next s) else r
  | _ => r

/-- A jump to this target ends here. -/
def landing [DecidableEq ι] (r : Run ε ι σ) (target : ι) : Run ε ι σ :=
  r.onJump target fun s => ended (.normal s)

/-! ## Equations -/

variable {r : Run ε ι σ} {k : σ → Run ε ι σ} {s : σ} {o : RunOutcome ι σ}

@[simp] theorem after_events (l : List ε) (r : Run ε ι σ) :
    (after l r).events = l ++ r.events := rfl

@[simp] theorem after_outcome (l : List ε) (r : Run ε ι σ) : (after l r).outcome = r.outcome := rfl

@[simp] theorem ended_events (o : RunOutcome ι σ) : (ended o : Run ε ι σ).events = [] := rfl

@[simp] theorem ended_outcome (o : RunOutcome ι σ) : (ended o : Run ε ι σ).outcome = o := rfl

@[simp] theorem after_nil (r : Run ε ι σ) : after [] r = r := rfl

theorem andThen_normal (h : r.outcome = .normal s) (k : σ → Run ε ι σ) :
    r.andThen k = after r.events (k s) := by
  simp [andThen, h]

theorem andThen_of_ne (h : ∀ s, r.outcome ≠ .normal s) (k : σ → Run ε ι σ) : r.andThen k = r := by
  unfold andThen
  split
  · next s hs => exact absurd hs (h s)
  · rfl

@[simp] theorem ended_normal_andThen (s : σ) (k : σ → Run ε ι σ) :
    (ended (.normal s)).andThen k = k s := rfl

@[simp] theorem after_andThen (l : List ε) (r : Run ε ι σ) (k : σ → Run ε ι σ) :
    (after l r).andThen k = after l (r.andThen k) := by
  obtain ⟨events, outcome⟩ := r
  cases outcome <;> simp [andThen, after]

@[simp] theorem andThen_ended (r : Run ε ι σ) : (r.andThen fun s => ended (.normal s)) = r := by
  obtain ⟨events, outcome⟩ := r
  cases outcome <;> simp [andThen, after, ended]

theorem andThen_assoc (r : Run ε ι σ) (k k' : σ → Run ε ι σ) :
    (r.andThen k).andThen k' = r.andThen fun s => (k s).andThen k' := by
  obtain ⟨events, outcome⟩ := r
  cases outcome with
  | normal s => simp [andThen_normal (r := ⟨events, .normal s⟩) rfl]
  | _ => rfl

/-- A run of two parts ends normally only through a normal end of both. -/
theorem andThen_outcome_normal (h : (r.andThen k).outcome = .normal s) :
    ∃ mid, r.outcome = .normal mid ∧ (k mid).outcome = .normal s := by
  obtain ⟨events, outcome⟩ := r
  cases outcome with
  | normal mid => exact ⟨mid, rfl, by simpa [andThen] using h⟩
  | _ => simp [andThen] at h

/-- An ending that neither part has is not that of the whole. -/
theorem andThen_outcome_ne (hr : r.outcome ≠ o) (hk : ∀ s, (k s).outcome ≠ o) :
    (r.andThen k).outcome ≠ o := by
  unfold andThen
  split
  · exact hk _
  · exact hr

section Jumps

variable [DecidableEq ι]

theorem onJump_of_ne {j : ι} (h : ∀ s, r.outcome ≠ .jump j s) (k : σ → Run ε ι σ) :
    r.onJump j k = r := by
  unfold onJump
  split
  · next j' s hs =>
    split
    · next heq => exact absurd (heq ▸ hs) (h s)
    · rfl
  · rfl

@[simp] theorem after_onJump (l : List ε) (r : Run ε ι σ) (j : ι) (k : σ → Run ε ι σ) :
    (after l r).onJump j k = after l (r.onJump j k) := by
  obtain ⟨events, outcome⟩ := r
  cases outcome with
  | jump j' s => by_cases h : j' = j <;> simp [onJump, after, h]
  | _ => rfl

@[simp] theorem after_landing (l : List ε) (r : Run ε ι σ) (j : ι) :
    (after l r).landing j = after l (r.landing j) := after_onJump ..

theorem landing_outcome_ne (hr : r.outcome ≠ o) (ho : ∀ s, .normal s ≠ o) (j : ι) :
    (r.landing j).outcome ≠ o := by
  unfold landing onJump
  split
  · split
    · exact ho _
    · exact hr
  · exact hr

/-- What has landed does not jump there any more. -/
theorem landing_ne_jump (r : Run ε ι σ) (j : ι) (s : σ) : (r.landing j).outcome ≠ .jump j s := by
  unfold landing onJump
  split
  · next j' s' ho =>
    split
    · simp
    · next hne =>
      rw [ho]
      exact fun h => hne (RunOutcome.jump.inj h).1
  · next hno => exact hno j s

end Jumps

end Run

/-! ## Steps of a machine -/

namespace AtomicMachine

variable {ε ι σ : Type}

/-- Runs a piece of code. `mark` says what event a step is. -/
def perform (m : AtomicMachine σ) (mark : Step → ε) (code : Code) (s : σ) : Run ε ι σ :=
  match m.compute code s with
  | some s' => ⟨[mark (.compute code)], .normal s'⟩
  | none => ⟨[mark (.compute code)], .aborted⟩

/-- Tests the value of a piece of code and goes on with the answer. -/
def branchOn (m : AtomicMachine σ) (mark : Step → ε) (code : Code) (s : σ)
    (next : Bool → σ → Run ε ι σ) : Run ε ι σ :=
  match m.test code s with
  | some (s', holds) => .after [mark (.test code)] (next holds s')
  | none => ⟨[mark (.test code)], .aborted⟩

end AtomicMachine

/-! ## Larger bounds -/

namespace Run

variable {ε ι σ : Type} {r r' : Run ε ι σ} {k k' : σ → Run ε ι σ}

/-- The second run is the first with a larger bound on its loops: the same run if it ended, and a
longer one if it did not. -/
def Extends (r r' : Run ε ι σ) : Prop :=
  r' = r ∨ (r.outcome = .unfinished ∧ r.events <+: r'.events)

theorem Extends.refl (r : Run ε ι σ) : r.Extends r := Or.inl rfl

theorem Extends.events (h : r.Extends r') : r.events <+: r'.events := by
  rcases h with rfl | ⟨_, h⟩
  · exact List.prefix_rfl
  · exact h

theorem Extends.eq_of_ended (h : r.Extends r') (hr : r.outcome ≠ .unfinished) : r' = r := by
  rcases h with h | ⟨hu, _⟩
  · exact h
  · exact absurd hu hr

theorem Extends.trans {r₁ r₂ r₃ : Run ε ι σ} (h : r₁.Extends r₂) (h' : r₂.Extends r₃) :
    r₁.Extends r₃ := by
  rcases h with rfl | ⟨hu, hp⟩
  · exact h'
  · exact Or.inr ⟨hu, hp.trans h'.events⟩

theorem extends_of_unfinished (r : Run ε ι σ) : (ended .unfinished : Run ε ι σ).Extends r :=
  Or.inr ⟨rfl, List.nil_prefix⟩

theorem Extends.after (l : List ε) (h : r.Extends r') :
    (Run.after l r).Extends (Run.after l r') := by
  rcases h with rfl | ⟨hu, hp⟩
  · exact Extends.refl _
  · exact Or.inr ⟨hu, (List.prefix_append_right_inj l).mpr hp⟩

theorem events_andThen (r : Run ε ι σ) (k : σ → Run ε ι σ) :
    r.events <+: (r.andThen k).events := by
  unfold andThen
  split
  · exact List.prefix_append _ _
  · exact List.prefix_rfl

theorem Extends.andThen (h : r.Extends r') (hk : ∀ s, (k s).Extends (k' s)) :
    (r.andThen k).Extends (r'.andThen k') := by
  rcases h with rfl | ⟨hu, hp⟩
  · unfold Run.andThen
    split
    · next s _ => exact (hk s).after _
    · exact Extends.refl _
  · -- The first run was broken off, so what follows it was never reached.
    rw [andThen_of_ne (r := r) (by simp [hu])]
    exact Or.inr ⟨hu, hp.trans (events_andThen r' k')⟩

section Jumps

variable [DecidableEq ι]

theorem events_onJump (r : Run ε ι σ) (j : ι) (k : σ → Run ε ι σ) :
    r.events <+: (r.onJump j k).events := by
  unfold onJump
  split
  · split
    · exact List.prefix_append _ _
    · exact List.prefix_rfl
  · exact List.prefix_rfl

theorem Extends.onJump (j : ι) (h : r.Extends r') (hk : ∀ s, (k s).Extends (k' s)) :
    (r.onJump j k).Extends (r'.onJump j k') := by
  rcases h with rfl | ⟨hu, hp⟩
  · unfold Run.onJump
    split
    · next s _ =>
      split
      · exact (hk s).after _
      · exact Extends.refl _
    · exact Extends.refl _
  · rw [onJump_of_ne (r := r) (by simp [hu])]
    exact Or.inr ⟨hu, hp.trans (events_onJump r' j k')⟩

theorem Extends.landing (j : ι) (h : r.Extends r') : (r.landing j).Extends (r'.landing j) :=
  h.onJump j fun _ => Extends.refl _

end Jumps

theorem extends_branchOn (m : AtomicMachine σ) (mark : Step → ε) (code : Code) (s : σ)
    {k k' : Bool → σ → Run ε ι σ} (hk : ∀ b s, (k b s).Extends (k' b s)) :
    (m.branchOn mark code s k).Extends (m.branchOn mark code s k') := by
  unfold AtomicMachine.branchOn
  split
  · exact (hk _ _).after _
  · exact Extends.refl _

/-- One round more at a time gives any number of rounds more. -/
theorem extends_of_le {run : Nat → Run ε ι σ} (h : ∀ n, (run n).Extends (run (n + 1))) :
    ∀ {n k : Nat}, n ≤ k → (run n).Extends (run k) := by
  intro n k hle
  induction hle with
  | refl => exact Extends.refl _
  | step _ ih => exact ih.trans (h _)

end Run

end WasmBackend
