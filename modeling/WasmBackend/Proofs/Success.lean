import WasmBackend.Lower.Stmt
import WasmBackend.Proofs.Arena

/-!
# What success says

Lowering is written in two monads: `Compiled`, which fails or gives a value, and `LowerM`, which
also carries the frame and the supply of labels. A proof about a lowering that succeeded wants to
know that every step of it did, and with what. Each lemma here turns one building block into that
statement, so that a `do` block comes apart by `simp only`. How the two fail is compared in
`Traversal.Statements`.
-/

namespace WasmBackend

namespace Compiled

section Steps

-- The errors may carry more than a `CompileError`.
variable {ε α β : Type} {x : Except ε α} {f : α → Except ε β} {e : ε}

theorem bind_ok {b : β} :
    (x >>= f) = .ok b ↔ ∃ a, x = .ok a ∧ f a = .ok b := by
  cases x with
  | ok a => exact ⟨fun h => ⟨a, rfl, h⟩, fun ⟨_, ha, h⟩ => by cases ha; exact h⟩
  | error e => exact ⟨fun h => (nomatch h), fun ⟨_, ha, _⟩ => (nomatch ha)⟩

theorem ok_bind (a : α) (f : α → Except ε β) :
    (Except.ok a >>= f) = f a := rfl

/-- Success with a value, in a form that can be decided. -/
theorem eq_ok_iff {a : α} : x = .ok a ↔ x.toOption = some a := by
  cases x <;> simp [Except.toOption]

theorem pure_ok {a b : α} : (pure a : Except ε α) = .ok b ↔ a = b :=
  ⟨fun h => by cases h; rfl, fun h => by rw [h]; rfl⟩

theorem map_ok {f : α → β} {b : β} :
    Except.map f x = .ok b ↔ ∃ a, x = .ok a ∧ f a = b := by
  cases x with
  | ok a => simp [Except.map]
  | error e => simp [Except.map]

theorem bind_error :
    (x >>= f) = .error e ↔ x = .error e ∨ ∃ a, x = .ok a ∧ f a = .error e := by
  cases x with
  | ok a => simp [ok_bind]
  | error e' =>
    have hfails : (Except.error e' >>= f) = .error e ↔ e' = e := by
      constructor
      · intro h
        cases h
        rfl
      · rintro rfl
        rfl
    simp [hfails]

/-- A check that was passed. -/
theorem ite_error_ok {p : Prop} [Decidable p] {a : α} :
    (if p then .error e else x) = .ok a ↔ ¬p ∧ x = .ok a := by
  split <;> simp_all

/-- Failing at a check, or behind it. -/
theorem ite_error_error {p : Prop} [Decidable p] {e' : ε} :
    (if p then .error e else x) = .error e' ↔ p ∧ e = e' ∨ ¬p ∧ x = .error e' := by
  split <;> simp_all

theorem mapError_ok {ε' : Type} {g : ε → ε'} {a : α} : x.mapError g = .ok a ↔ x = .ok a := by
  cases x <;> simp [Except.mapError]

end Steps

variable {α β : Type} {x : Compiled α} {f : α → Compiled β} {e : CompileError}

/-- What every step of a loop that may fail keeps, the loop keeps. -/
theorem foldlM_invariant {P : α → Prop} {step : α → β → Compiled α}
    (hstep : ∀ a b a', P a → step a b = .ok a' → P a') {l : List β} {a a' : α} (ha : P a)
    (h : l.foldlM step a = .ok a') : P a' := by
  induction l generalizing a with
  | nil =>
    cases h
    exact ha
  | cons b rest ih =>
    obtain ⟨next, hnext, hrest⟩ := bind_ok.mp h
    exact ih (hstep a b next ha hnext) hrest

/-- A loop fails with one of its steps, those before it having succeeded. -/
theorem foldlM_error {step : α → β → Compiled α} {l : List β} {a : α}
    (h : l.foldlM step a = .error e) :
    ∃ done b rest a', l = done ++ b :: rest ∧ done.foldlM step a = .ok a' ∧
      step a' b = .error e := by
  induction l generalizing a with
  | nil => cases h
  | cons b rest ih =>
    obtain hstep | ⟨next, hnext, hrest⟩ := bind_error.mp h
    · exact ⟨[], b, rest, a, rfl, rfl, hstep⟩
    · obtain ⟨done, b', rest', a', rfl, hdone, hstep⟩ := ih hrest
      exact ⟨b :: done, b', rest', a', rfl, bind_ok.mpr ⟨next, hnext, hdone⟩, hstep⟩

/-- All failures are of one kind. -/
def FailsIn (P : CompileError → Prop) (x : Compiled α) : Prop :=
  ∀ e, x = .error e → P e

namespace FailsIn

variable {P : CompileError → Prop}

theorem ok (a : α) : FailsIn P (.ok a) := nofun

theorem error (h : P e) : FailsIn P (.error e : Compiled α) := by
  intro e' heq
  cases heq
  exact h

theorem map (f : α → β) (hx : FailsIn P x) : FailsIn P (Except.map f x) := by
  cases x with
  | ok a => exact .ok _
  | error e => exact .error (hx e rfl)

end FailsIn

end Compiled

theorem ImportEntry.resolved_ok {i : ImportEntry} {d : Descriptor} (h : i.resolved = .ok d) :
    i.descriptor = some d := by
  unfold ImportEntry.resolved at h
  split at h
  · cases h
    assumption
  · cases h

/-! ## Steps that carry a state -/

namespace EStateM

variable {ε σ α β : Type} {x : EStateM ε σ α} {f : α → EStateM ε σ β} {s s' : σ} {a : α} {e : ε}

theorem bind_ok {b : β} :
    (x >>= f) s = .ok b s' ↔ ∃ a s₁, x s = .ok a s₁ ∧ f a s₁ = .ok b s' := by
  show EStateM.bind x f s = .ok b s' ↔ _
  unfold EStateM.bind
  cases hx : x s with
  | ok a s₁ =>
    exact ⟨fun h => ⟨a, s₁, rfl, h⟩, fun ⟨_, _, ha, h⟩ => by cases ha; exact h⟩
  | error e s₁ => exact ⟨fun h => (nomatch h), fun ⟨_, _, ha, _⟩ => (nomatch ha)⟩

theorem bind_of_ok (h : x s = .ok a s') : (x >>= f) s = f a s' := by
  show EStateM.bind x f s = _
  simp only [EStateM.bind, h]

theorem bind_of_error (h : x s = .error e s') : (x >>= f) s = .error e s' := by
  show EStateM.bind x f s = _
  simp only [EStateM.bind, h]

theorem pure_ok {b : α} : (pure a : EStateM ε σ α) s = .ok b s' ↔ a = b ∧ s = s' := by
  show EStateM.Result.ok a s = .ok b s' ↔ _
  simp

theorem get_ok {t : σ} : (get : EStateM ε σ σ) s = .ok t s' ↔ s = t ∧ s = s' := by
  show EStateM.Result.ok s s = .ok t s' ↔ _
  simp

theorem throw_ok : (throw e : EStateM ε σ α) s = .ok a s' ↔ False := by
  show EStateM.Result.error e s = .ok a s' ↔ _
  simp

/-- The state that a step ends with, be it with a value or with an error. -/
def endState (x : EStateM ε σ α) (s : σ) : σ :=
  match x s with
  | .ok _ s' => s'
  | .error _ s' => s'

theorem endState_of_ok (h : x s = .ok a s') : endState x s = s' := by
  unfold endState
  rw [h]

end EStateM

/-- The frame that a step of declaring ends with, if it succeeds. -/
def FrameM.result? (x : FrameM Unit) (f : Frame) : Option Frame :=
  match x f with
  | .ok _ f' => some f'
  | .error _ _ => none

theorem FrameM.result?_eq_some {x : FrameM Unit} {f f' : Frame} :
    x.result? f = some f' ↔ x f = .ok () f' := by
  unfold result?
  cases x f <;> simp

namespace LowerM

variable {α : Type} {a : α} {x : LowerM α} {s s' : LowerState}

/-- Does the lowering succeed from this state? -/
def succeeds (x : LowerM α) (s : LowerState) : Bool :=
  match x s with
  | .ok _ _ => true
  | .error _ _ => false

theorem exists_ok (h : x.succeeds s = true) :
    ∃ a s', x s = .ok a s' := by
  unfold succeeds at h
  split at h
  · exact ⟨_, _, ‹_›⟩
  · cases h

theorem ofCompiled_ok {x : Compiled α} :
    ofCompiled x s = .ok a s' ↔ x = .ok a ∧ s = s' := by
  cases x <;> simp [ofCompiled]

theorem afterWriting_ok {w : Unit → List Line} :
    afterWriting w x s = .ok a s' ↔ x s = .ok a s' := by
  unfold afterWriting
  cases x s <;> simp

theorem modifyFrame_ok {g : Frame → Frame} {u : Unit} :
    modifyFrame g s = .ok u s' ↔ { s with frame := g s.frame } = s' := by
  show EStateM.Result.ok () _ = .ok u s' ↔ _
  simp

theorem freshLabels_ok {draw : LabelSupply → LoopLabels × LabelSupply} {l : LoopLabels} :
    freshLabels draw s = .ok l s' ↔
      (draw s.labels).1 = l ∧ { s with labels := (draw s.labels).2 } = s' := by
  simp [freshLabels]

/-- A step inside a loop succeeds as the step does, and leaves the loop again. -/
theorem insideLoop_ok {l : LoopLabels} :
    insideLoop l x s = .ok a s' ↔
      ∃ s₁, x { s with frame := s.frame.enterLoop l } = .ok a s₁ ∧
        { s₁ with frame := s₁.frame.exitLoop } = s' := by
  unfold insideLoop
  cases x { s with frame := s.frame.enterLoop l } with
  | ok b s₁ =>
    simp only [EStateM.Result.ok.injEq]
    exact ⟨fun ⟨hb, hs⟩ => ⟨s₁, ⟨hb, rfl⟩, hs⟩, fun ⟨_, ⟨hb, h₁⟩, hs⟩ => ⟨hb, by rw [h₁, hs]⟩⟩
  | error e s₁ => simp

theorem frameScope_ok {info : ModuleInfo} {arena : Arena} {sc : Scope} :
    Lower.frameScope info arena s = .ok sc s' ↔ ⟨info, arena, some s.frame⟩ = sc ∧ s = s' := by
  show EStateM.Result.ok _ _ = .ok sc s' ↔ _
  simp

end LowerM

end WasmBackend
