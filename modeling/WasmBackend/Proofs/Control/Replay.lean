import WasmBackend.Proofs.Control.Target

/-!
# Where the steps of a run start

A run lists its steps, but not the states in between. Since nothing but a step changes the state,
they can be had by taking the steps again from the beginning (`AtomicMachine.replay`): a run that
ends with a state ends with that of the replay, and all its steps are pieces of the code that runs
(`Body.exec_traces`). So a run starts a step in the state that the steps before it lead to
(`Body.Starts`), also if the run never ends. Which steps a run takes is not asked here.
-/

namespace WasmBackend

def Step.code : Step → Code
  | .compute code => code
  | .test code => code

/-- The state in which the run ended, if it came to an end of its own. -/
def RunOutcome.state? {ι σ : Type} : RunOutcome ι σ → Option σ
  | .normal s => some s
  | .jump _ s => some s
  | .returned s => some s
  | _ => none

namespace AtomicMachine

variable {σ : Type} (m : AtomicMachine σ)

/-- The state after a step, unless it does not come back. -/
def take : Step → σ → Option σ
  | .compute code, s => m.compute code s
  | .test code, s => (m.test code s).map Prod.fst

/-- Takes steps one after the other. -/
def replay : List Step → σ → Option σ
  | [], s => some s
  | step :: rest, s => (m.take step s).bind (replay rest)

theorem replay_append (a b : List Step) (s : σ) :
    m.replay (a ++ b) s = (m.replay a s).bind (m.replay b) := by
  induction a generalizing s with
  | nil => rfl
  | cons step rest ih =>
    simp only [List.cons_append, replay]
    cases m.take step s with
    | none => rfl
    | some s => exact ih s

/-- What every step preserves holds wherever steps lead to. -/
theorem replay_induction {P : σ → Prop} {steps : List Step}
    (hstep : ∀ step ∈ steps, ∀ s s', P s → m.take step s = some s' → P s') {s s' : σ} (hs : P s)
    (h : m.replay steps s = some s') : P s' := by
  induction steps generalizing s with
  | nil =>
    cases h
    exact hs
  | cons step rest ih =>
    obtain ⟨mid, hmid, hrest⟩ := Option.bind_eq_some_iff.mp h
    have hnext := hstep step List.mem_cons_self s mid hs hmid
    exact ih (fun step hmem => hstep step (List.mem_cons_of_mem _ hmem)) hnext hrest

end AtomicMachine

/-! ## Runs that can be replayed -/

/-- All steps of the run are of this code, and taking them again leads to where the run ended. -/
structure Run.Traces {ι σ : Type} (m : AtomicMachine σ) (codes : List Code) (start : σ)
    (r : Run Step ι σ) : Prop where
  codes : ∀ step ∈ r.events, step.code ∈ codes
  replays : ∀ s, r.outcome.state? = some s → m.replay r.events start = some s

namespace Run.Traces

variable {ι σ : Type} {m : AtomicMachine σ} {codes codes' : List Code} {start : σ}
variable {r : Run Step ι σ}

theorem mono (h : r.Traces m codes start) (hcodes : codes ⊆ codes') : r.Traces m codes' start :=
  ⟨fun step hstep => hcodes (h.codes step hstep), h.replays⟩

/-- A run that ends at once does so in the state in which it began, if in any. -/
theorem ended {o : RunOutcome ι σ} (ho : ∀ s, o.state? = some s → s = start) :
    (Run.ended o : Run Step ι σ).Traces m codes start where
  codes := by simp
  replays s hs := by
    rw [ho s hs]
    rfl

theorem after {steps : List Step} {mid : σ} (hsteps : ∀ step ∈ steps, step.code ∈ codes)
    (hmid : m.replay steps start = some mid) (h : r.Traces m codes mid) :
    (Run.after steps r).Traces m codes start where
  codes step hstep := by
    rcases List.mem_append.mp hstep with hmem | hmem
    · exact hsteps step hmem
    · exact h.codes step hmem
  replays s hs := by
    rw [Run.after_events, m.replay_append, hmid]
    exact h.replays s hs

theorem andThen {k : σ → Run Step ι σ} (h : r.Traces m codes start)
    (hk : ∀ s, (k s).Traces m codes s) : (r.andThen k).Traces m codes start := by
  unfold Run.andThen
  split
  · next s hs => exact after h.codes (h.replays s (by rw [hs]; rfl)) (hk s)
  · exact h

theorem onJump [DecidableEq ι] {target : ι} {k : σ → Run Step ι σ} (h : r.Traces m codes start)
    (hk : ∀ s, (k s).Traces m codes s) : (r.onJump target k).Traces m codes start := by
  unfold Run.onJump
  split
  · next j s hs =>
    split
    · exact after h.codes (h.replays s (by rw [hs]; rfl)) (hk s)
    · exact h
  · exact h

theorem landing [DecidableEq ι] {target : ι} (h : r.Traces m codes start) :
    (r.landing target).Traces m codes start :=
  h.onJump fun _ => ended fun _ hs => (Option.some.inj hs).symm

theorem repeating [DecidableEq ι] {target : ι} {body : Nat → σ → Run Step ι σ}
    (hbody : ∀ n s, (body n s).Traces m codes s) :
    ∀ n s, (Run.repeating target body n s).Traces m codes s := by
  intro n
  induction n with
  | zero => exact fun s => ended fun _ hs => by cases hs
  | succ n ih => exact fun s => (hbody (n + 1) s).onJump ih

theorem branchOn {code : Code} (hcode : code ∈ codes) {next : Bool → σ → Run Step ι σ}
    (hnext : ∀ holds s, (next holds s).Traces m codes s) :
    (m.branchOn id code start next).Traces m codes start := by
  unfold AtomicMachine.branchOn
  split
  · next s holds hs =>
    have hreplay : m.replay [.test code] start = some s := by
      simp [AtomicMachine.replay, AtomicMachine.take, hs]
    exact after (by simpa [Step.code] using hcode) hreplay (hnext holds s)
  · exact ⟨by simpa [Step.code] using hcode, fun _ hs => by cases hs⟩

end Run.Traces

namespace Body

variable {σ : Type} {m : AtomicMachine σ}

/-- The pieces of code that a body is made of. -/
def codes : Body → List Code
  | done => []
  | run code rest => code :: rest.codes
  | block _ inner rest => inner.codes ++ rest.codes
  | loop _ inner rest => inner.codes ++ rest.codes
  | branch _ rest => rest.codes
  | branchUnless condition _ rest => condition :: rest.codes
  | cond condition _ thenArm rest => condition :: (thenArm.codes ++ rest.codes)
  | condElse condition _ thenArm elseArm rest =>
    condition :: (thenArm.codes ++ (elseArm.codes ++ rest.codes))
  | ret value rest => value :: rest.codes
  | unreachable rest => rest.codes

theorem codes_append (a b : Body) : (a ++ b).codes = a.codes ++ b.codes := by
  have happ : ∀ c d : Body, c ++ d = c.append d := fun _ _ => rfl
  induction a <;> simp_all [append, codes]

theorem computing_traces {code : Code} {codes : List Code} (hcode : code ∈ codes) (s : σ) :
    (computing m code s).Traces m codes s := by
  unfold computing
  split
  · exact .ended fun _ hs => (Option.some.inj hs).symm
  · unfold AtomicMachine.perform
    split
    · next s' hs =>
      refine ⟨by simpa [Step.code] using hcode, fun _ hend => ?_⟩
      cases hend
      simp [AtomicMachine.replay, AtomicMachine.take, hs]
    · exact ⟨by simpa [Step.code] using hcode, fun _ hs => by cases hs⟩

/-- A run of a body takes steps of the body only, and can be replayed. -/
theorem exec_traces (b : Body) (n : Nat) (s : σ) : (b.exec m n s).Traces m b.codes s := by
  induction b generalizing n s with
  | done => exact .ended fun _ hs => (Option.some.inj hs).symm
  | run code rest ih =>
    exact (computing_traces List.mem_cons_self s).andThen fun s =>
      (ih n s).mono (List.subset_cons_self _ _)
  | block label inner rest ihInner ih =>
    exact ((ihInner n s).mono (List.subset_append_left _ _)).landing.andThen fun s =>
      (ih n s).mono (List.subset_append_right _ _)
  | loop label inner rest ihInner ih =>
    refine Run.Traces.andThen ?_ fun s => (ih n s).mono (List.subset_append_right _ _)
    exact .repeating (fun n s => (ihInner n s).mono (List.subset_append_left _ _)) n s
  | branch label rest _ => exact .ended fun _ hs => (Option.some.inj hs).symm
  | branchUnless condition label rest ih =>
    refine .branchOn List.mem_cons_self fun holds s => ?_
    cases holds with
    | true => exact (ih n s).mono (List.subset_cons_self _ _)
    | false => exact .ended fun _ hs => (Option.some.inj hs).symm
  | cond condition result thenArm rest ihThen ih =>
    refine Run.Traces.andThen (.branchOn List.mem_cons_self fun holds s => ?_) fun s =>
      (ih n s).mono fun _ hc => by simp [codes, hc]
    cases holds with
    | true => exact (ihThen n s).mono fun _ hc => by simp [hc]
    | false => exact .ended fun _ hs => (Option.some.inj hs).symm
  | condElse condition result thenArm elseArm rest ihThen ihElse ih =>
    refine Run.Traces.andThen (.branchOn List.mem_cons_self fun holds s => ?_) fun s =>
      (ih n s).mono fun _ hc => by simp [codes, hc]
    cases holds with
    | true => exact (ihThen n s).mono fun _ hc => by simp [hc]
    | false => exact (ihElse n s).mono fun _ hc => by simp [hc]
  | ret value rest _ =>
    exact (computing_traces List.mem_cons_self s).andThen fun s =>
      .ended fun _ hs => (Option.some.inj hs).symm
  | unreachable rest _ => exact .ended fun _ hs => by cases hs

/-- Some run of the body takes this step in this state. -/
def Starts (m : AtomicMachine σ) (b : Body) (start : σ) (step : Step) (s : σ) : Prop :=
  ∃ n pre post, (b.exec m n start).events = pre ++ step :: post ∧ m.replay pre start = some s

/-- What all pieces of the body preserve holds wherever one is started, and where a run ends. -/
theorem exec_induction {P : σ → Prop} {b : Body} {start : σ}
    (hstep : ∀ step s s', step.code ∈ b.codes → P s → m.take step s = some s' → P s')
    (hstart : P start) :
    (∀ step s, b.Starts m start step s → step.code ∈ b.codes ∧ P s) ∧
      ∀ n s, (b.exec m n start).outcome.state? = some s → P s := by
  constructor
  · rintro step s ⟨n, pre, post, hevents, hreplay⟩
    have hcodes := (b.exec_traces (m := m) n start).codes
    rw [hevents] at hcodes
    refine ⟨hcodes step (by simp), m.replay_induction (fun step hmem s s' => ?_) hstart hreplay⟩
    exact hstep step s s' (hcodes step (List.mem_append_left _ hmem))
  · intro n s hs
    have htraces := b.exec_traces (m := m) n start
    exact m.replay_induction (fun step hmem s s' => hstep step s s' (htraces.codes step hmem))
      hstart (htraces.replays s hs)

end Body

end WasmBackend
