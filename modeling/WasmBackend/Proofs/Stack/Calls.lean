import WasmBackend.Proofs.Scoping.Module
import WasmBackend.Proofs.Stack.Rules

/-!
# Headers, type declarations and calls

A signature is written three times: in the type declaration that all functions with the same
encoding share, in the header of the function, and by every call, which pushes an argument for each
parameter. The three treat types without a value differently. The type declaration leaves them out,
the header gives them a word, and a call pushes whatever the argument leaves.

So the header of a function has the types of its type declaration exactly if no parameter is of type
`void`. A call has one more way to go wrong: an argument is converted from the lane that is inferred
for it, so it must leave a value of that lane (`Scope.Meets`). Bodies are not validated here.
-/

namespace WasmBackend

open Compiled Lower StackContext

/-! ## Code that pushes values -/

/-- Whatever is on the stack, the code leaves values of these types on top of it. -/
def StackContext.Pushes (Γ : StackContext) (code : Code) (ts : List ValType) : Prop :=
  ∀ stack, Γ.check code stack = some (ts ++ stack)

namespace StackContext.Pushes

variable {Γ : StackContext} {a b : Code} {ts us : List ValType} {i : Instr} {x r : ValType}

theorem nil (Γ : StackContext) : Γ.Pushes .nil [] := fun _ => rfl

theorem append (ha : Γ.Pushes a ts) (hb : Γ.Pushes b us) : Γ.Pushes (a ++ b) (us ++ ts) := by
  intro stack
  rw [check_append, ha stack, Option.bind_some, hb, List.append_assoc]

/-- What an instruction of one operand and one result is given and gives. -/
theorem step_unary (hi : Γ.type? i = some ([x], [r])) {stack stack' : List ValType} :
    Γ.step i stack = some stack' ↔ ∃ rest, stack = x :: rest ∧ stack' = r :: rest := by
  rw [step_eq (by rintro rfl; cases hi), hi]
  cases stack with
  | nil => simp [pop]
  | cons t stack =>
    by_cases ht : x = t
    · subst ht
      simp [pop, eq_comm]
    · simp [pop, ht, Ne.symm ht]

/-- An instruction of one operand after the code works on the value that the code pushes. -/
theorem unary_iff (hi : Γ.type? i = some ([x], [r])) :
    Γ.Pushes (a ++ .one i) [r] ↔ Γ.Pushes a [x] := by
  constructor
  · intro h stack
    have hstack := h stack
    rw [check_append, Option.bind_eq_some_iff] at hstack
    obtain ⟨between, hbetween, hstep⟩ := hstack
    rw [check_one, step_unary hi] at hstep
    obtain ⟨rest, rfl, hrest⟩ := hstep
    obtain rfl : stack = rest := (List.cons.inj hrest).2
    exact hbetween
  · intro h stack
    rw [check_append, h stack, Option.bind_some, check_one, step_unary hi]
    exact ⟨stack, rfl, rfl⟩

end StackContext.Pushes

/-! ## Arguments -/

/-- What is converted to the lane of a parameter is what its own lane says: it is a constant, or its
code pushes a value of its lane. -/
def Scope.Reliable (sc : Scope) (Γ : StackContext) (arg : ExprId) : Prop :=
  (sc.constant? arg).isSome = true ∨ ∃ own source, lower sc arg = .ok own ∧
    sc.laneOf arg = .ok source ∧ Γ.Pushes own [source.carried]

/-- An argument that suits a parameter of this lane. For a parameter without a value it has to push
nothing. -/
def Scope.Meets (sc : Scope) (Γ : StackContext) (arg : ExprId) (lane : Lane) : Prop :=
  if lane = .void then ∃ own, lower sc arg = .ok own ∧ Γ.Pushes own [] else sc.Reliable Γ arg

/-- Conversion is from the one lane to the other. -/
theorem Instr.convert?_type {Γ : StackContext} {source lane : Lane} {i : Instr}
    (hi : Instr.convert? source lane = some i) :
    Γ.type? i = some ([source.carried], [lane.carried]) := by
  cases source <;> cases lane <;> cases hi <;> rfl

/-- Lanes without a conversion between them travel alike. -/
theorem Instr.carried_of_convert?_none {source lane : Lane} (h : lane ≠ .void)
    (hi : Instr.convert? source lane = none) : source.carried = lane.carried := by
  cases source <;> cases lane <;> first | rfl | exact absurd rfl h | cases hi

section Arguments

variable {sc : Scope} {Γ : StackContext} {arg : ExprId} {lane : Lane} {code : Code}

/-- An argument in the lane of its parameter: the code of the argument itself, a constant, or the
code converted. -/
theorem asLane_cases (h : asLane sc arg lane = .ok code) :
    (lane = .void ∧ lower sc arg = .ok code) ∨
    (lane ≠ .void ∧ ∃ c, sc.constant? arg = some c ∧ code = .one (.constant c lane)) ∨
    (lane ≠ .void ∧ sc.constant? arg = none ∧ ∃ own source, sc.laneOf arg = .ok source ∧
      lower sc arg = .ok own ∧
      ((∃ i, Γ.type? i = some ([source.carried], [lane.carried]) ∧ code = own ++ .one i) ∨
        (source.carried = lane.carried ∧ code = own))) := by
  unfold asLane asLaneWith at h
  split at h
  · next hvoid => exact .inl ⟨hvoid, h⟩
  · next hvoid =>
    refine .inr ?_
    split at h
    · next c hc =>
      cases h
      exact .inl ⟨hvoid, c, hc, rfl⟩
    · next hc =>
      simp only [bind_ok] at h
      obtain ⟨source, hsource, own, hown, h⟩ := h
      refine .inr ⟨hvoid, hc, own, source, hsource, hown, ?_⟩
      split at h <;> rw [pure_ok] at h
      · next i hi => exact .inl ⟨i, Instr.convert?_type hi, h.symm⟩
      · next hi => exact .inr ⟨Instr.carried_of_convert?_none hvoid hi, h.symm⟩

/-- An argument pushes what its parameter takes exactly if it suits it. -/
theorem asLane_pushes_iff (h : asLane sc arg lane = .ok code) :
    Γ.Pushes code lane.valType?.toList ↔ sc.Meets Γ arg lane := by
  rcases asLane_cases (Γ := Γ) h with ⟨rfl, hown⟩ | ⟨hvoid, c, hc, rfl⟩ |
    ⟨hvoid, hc, own, source, hsource, hown, hcode⟩
  · simp [Scope.Meets, hown, Lane.valType?]
  · simp only [Scope.Meets, if_neg hvoid, Scope.Reliable, hc, Lane.valType?_of_ne_void hvoid,
      Option.isSome_some, true_or, iff_true]
    exact constant_leaves Γ c lane
  · -- What is pushed is the value of the argument, converted or as it is.
    have hpushes : Γ.Pushes code [lane.carried] ↔ Γ.Pushes own [source.carried] := by
      rcases hcode with ⟨i, hi, rfl⟩ | ⟨hcarried, rfl⟩
      · exact Pushes.unary_iff hi
      · rw [hcarried]
    simpa [Scope.Meets, hvoid, Scope.Reliable, hc, hown, hsource,
      Lane.valType?_of_ne_void hvoid] using hpushes

/-- An argument whose code pushes one value pushes one value in any lane, if it is accepted. -/
theorem asLane_pushes_one {own : Code} {t : ValType} {stack stack' : List ValType}
    (hown : lower sc arg = .ok own) (ht : Γ.Pushes own [t]) (h : asLane sc arg lane = .ok code)
    (hcheck : Γ.check code stack = some stack') : ∃ u, Γ.Pushes code [u] := by
  rcases asLane_cases (Γ := Γ) h with ⟨-, hcode⟩ | ⟨-, c, -, rfl⟩ |
    ⟨-, -, own', source, -, hown', hcode⟩
  · cases hown.symm.trans hcode
    exact ⟨t, ht⟩
  · exact ⟨_, constant_leaves Γ c lane⟩
  · cases hown.symm.trans hown'
    rcases hcode with ⟨i, hi, rfl⟩ | ⟨-, rfl⟩
    · refine ⟨_, (Pushes.unary_iff hi).mpr ?_⟩
      rw [check_append, ht stack, Option.bind_some, check_one, Pushes.step_unary hi] at hcheck
      obtain ⟨rest, heq, -⟩ := hcheck
      cases heq
      exact ht
    · exact ⟨t, ht⟩

variable {args : List (ExprId × Lane)}

theorem arguments_cons {rest : List (ExprId × Lane)} :
    argumentsWith sc (lower sc) ((arg, lane) :: rest) = .ok code ↔
      ∃ first others, asLane sc arg lane = .ok first ∧
        argumentsWith sc (lower sc) rest = .ok others ∧ code = first ++ others := by
  simp only [argumentsWith, bind_ok, pure_ok]
  constructor
  · rintro ⟨first, hfirst, others, hothers, rfl⟩
    exact ⟨first, others, hfirst, hothers, rfl⟩
  · rintro ⟨first, others, hfirst, hothers, rfl⟩
    exact ⟨first, hfirst, others, hothers, rfl⟩

/-- Each argument is lowered in the lane of its parameter. -/
theorem arguments_each (h : argumentsWith sc (lower sc) args = .ok code) :
    ∀ a ∈ args, ∃ c, asLane sc a.1 a.2 = .ok c := by
  induction args generalizing code with
  | nil => simp
  | cons a rest ih =>
    obtain ⟨first, others, hfirst, hothers, -⟩ := arguments_cons.mp h
    exact List.forall_mem_cons.mpr ⟨⟨first, hfirst⟩, ih hothers⟩

/-- If every argument suits its parameter, together they push what is taken off the stack. -/
theorem arguments_pushes (h : argumentsWith sc (lower sc) args = .ok code)
    (hmeets : ∀ a ∈ args, sc.Meets Γ a.1 a.2) :
    Γ.Pushes code (args.filterMap fun a => a.2.valType?).reverse := by
  induction args generalizing code with
  | nil =>
    cases h
    exact Pushes.nil Γ
  | cons a rest ih =>
    obtain ⟨hfirst, hrest⟩ := List.forall_mem_cons.mp hmeets
    obtain ⟨first, others, hlane, hothers, rfl⟩ := arguments_cons.mp h
    have hpushes := ((asLane_pushes_iff hlane).mpr hfirst).append (ih hothers hrest)
    cases hty : a.2.valType? with
    | none => simpa [List.filterMap_cons_none hty, hty] using hpushes
    | some t => simpa [List.filterMap_cons_some hty, hty] using hpushes

/-- If the code of every argument pushes one value, so many values are pushed as there are
arguments. -/
theorem arguments_push_each {stack stack' : List ValType}
    (hone : ∀ a ∈ args, ∃ own t, lower sc a.1 = .ok own ∧ Γ.Pushes own [t])
    (h : argumentsWith sc (lower sc) args = .ok code)
    (hcheck : Γ.check code stack = some stack') :
    ∃ us, stack' = us.reverse ++ stack ∧
      List.Forall₂ (fun a u => ∃ c, asLane sc a.1 a.2 = .ok c ∧ Γ.Pushes c [u]) args us := by
  induction args generalizing code stack with
  | nil =>
    cases h
    cases hcheck
    exact ⟨[], rfl, .nil⟩
  | cons a rest ih =>
    obtain ⟨⟨own, t, hown, ht⟩, hrest⟩ := List.forall_mem_cons.mp hone
    obtain ⟨first, others, hfirst, hothers, rfl⟩ := arguments_cons.mp h
    rw [check_append, Option.bind_eq_some_iff] at hcheck
    obtain ⟨between, hbetween, hcheck⟩ := hcheck
    obtain ⟨u, hu⟩ := asLane_pushes_one hown ht hfirst hbetween
    rw [hu stack, Option.some.injEq] at hbetween
    subst hbetween
    obtain ⟨us, rfl, hus⟩ := ih hrest hothers hcheck
    exact ⟨u :: us, by simp, .cons ⟨first, hfirst, hu⟩ hus⟩

end Arguments

/-! ## Lanes with a value -/

/-- The types that lanes with a value travel in are all there exactly if no lane is void. -/
theorem filterMap_valType?_eq_iff {lanes : List Lane} :
    lanes.map Lane.carried = lanes.filterMap Lane.valType? ↔ ∀ l ∈ lanes, l ≠ .void := by
  constructor
  · intro h l hl hvoid
    have hlength : (lanes.filterMap Lane.valType?).length = lanes.length := by
      rw [← h, List.length_map]
    have hsome := List.filterMap_length_eq_length.mp hlength l hl
    rw [hvoid] at hsome
    cases hsome
  · intro h
    exact (filterMap_valType? h).symm

/-! ## Calls -/

section Calls

variable {sc : Scope} {id : ExprId} {callee : String} {args : List ExprId} {code : Code}

/-- Operands that are lowered at all are lowered the same way from everywhere. -/
theorem argumentsWith_of_sub {sub : ExprId → Compiled Code}
    (hsub : ∀ id code, sub id = .ok code → lower sc id = .ok code)
    {args : List (ExprId × Lane)} (h : argumentsWith sc sub args = .ok code) :
    argumentsWith sc (lower sc) args = .ok code := by
  induction args generalizing code with
  | nil => exact h
  | cons a rest ih =>
    obtain ⟨arg, lane⟩ := a
    simp only [argumentsWith, bind_ok, pure_ok] at h ⊢
    obtain ⟨first, hfirst, others, hothers, rfl⟩ := h
    refine ⟨first, ?_, others, ih hothers, rfl⟩
    unfold asLaneWith at hfirst ⊢
    split at hfirst
    · next hvoid =>
      rw [if_pos hvoid]
      exact hsub _ _ hfirst
    · next hvoid =>
      rw [if_neg hvoid]
      split at hfirst
      · exact hfirst
      · simp only [bind_ok] at hfirst ⊢
        obtain ⟨source, hsource, own, hown, hfirst⟩ := hfirst
        exact ⟨source, hsource, own, hsub _ _ hown, hfirst⟩

/-- A call, lowered for its value or for its effect. -/
theorem lower_call (he : sc.arena.expr? id = some (.call callee args))
    (h : lower sc id = .ok code ∨ Lower.discard sc id = .ok code) :
    ∃ s pushing, signatureOf sc callee = .ok s ∧ args.length = s.paramLanes.length ∧
      argumentsWith sc (lower sc) (args.zip s.paramLanes) = .ok pushing ∧
      ∃ after, (after = [] ∨ after = [Instr.drop]) ∧
        code = pushing ++ .ofList (.call callee :: after) := by
  rcases h with h | h
  · rw [lower, descend_eq, ← lower] at h
    simp only [lowerStep, Scope.expr_eq_ok.mpr he, ok_bind, bind_ok,
      pure_ok] at h
    obtain ⟨_, hcall, rfl⟩ := h
    obtain ⟨s, pushing, hs, hlength, hpushing, rfl⟩ := callWith_ok hcall
    exact ⟨s, pushing, hs, hlength, argumentsWith_of_sub (fun _ _ => lower_of_guarded) hpushing,
      [], .inl rfl, rfl⟩
  · simp only [Lower.discard, Scope.expr_eq_ok.mpr he, ok_bind, bind_ok,
      pure_ok] at h
    obtain ⟨⟨inner, lane⟩, hcall, rfl⟩ := h
    obtain ⟨s, pushing, hs, hlength, hpushing, hpair⟩ := callWith_ok hcall
    cases hpair
    refine ⟨s, pushing, hs, hlength, hpushing, ?_⟩
    unfold dropValue
    split
    · exact ⟨[], .inl rfl, rfl⟩
    · exact ⟨[.drop], .inr rfl, Code.append_assoc _ _ _⟩

/-- What a callee takes off the stack, argument by argument. -/
theorem funcType_params {s : Signature} (hlength : args.length = s.paramLanes.length) :
    (funcType s).params = (args.zip s.paramLanes).filterMap fun a => a.2.valType? := by
  have hsnd : (args.zip s.paramLanes).map Prod.snd = s.paramLanes :=
    List.map_snd_zip (by omega)
  rw [funcType]
  conv_lhs => rw [← hsnd]
  rw [List.filterMap_map]
  rfl

/-- If the code of every argument pushes one value, the arguments are what the callee takes off the
stack exactly if all its parameters have a value and all arguments can be relied on. -/
theorem arguments_pushes_iff {Γ : StackContext} {s : Signature} {pushing : Code}
    (hlength : args.length = s.paramLanes.length)
    (h : argumentsWith sc (lower sc) (args.zip s.paramLanes) = .ok pushing)
    (hone : ∀ arg ∈ args, ∃ own t, lower sc arg = .ok own ∧ Γ.Pushes own [t]) :
    Γ.Pushes pushing (funcType s).params.reverse ↔
      (∀ t ∈ s.params, t ≠ .void) ∧ ∀ arg ∈ args, sc.Reliable Γ arg := by
  have hlanes : ∀ a ∈ args.zip s.paramLanes, a.1 ∈ args ∧ a.2 ∈ s.paramLanes :=
    fun a ha => ⟨(List.of_mem_zip ha).1, (List.of_mem_zip ha).2⟩
  have hsnd : (args.zip s.paramLanes).map Prod.snd = s.paramLanes :=
    List.map_snd_zip (by omega)
  have hfst : (args.zip s.paramLanes).map Prod.fst = args := List.map_fst_zip (by omega)
  constructor
  · intro hpushes
    obtain ⟨us, hus, heach⟩ := arguments_push_each
      (fun a ha => hone a.1 (hlanes a ha).1) h (hpushes [])
    rw [List.append_nil, List.append_nil, List.reverse_inj] at hus
    have hvalues : ∀ l ∈ s.paramLanes, l ≠ .void := by
      have hcount : (s.paramLanes.filterMap Lane.valType?).length = s.paramLanes.length := by
        have := heach.length_eq
        rw [List.length_zip, hlength, Nat.min_self, ← hus] at this
        exact this.symm
      rintro l hl rfl
      cases List.filterMap_length_eq_length.mp hcount _ hl
    refine ⟨Signature.paramLanes_ne_void.mp hvalues, ?_⟩
    -- The values are those of the parameters, one by one.
    have hall : ∀ a ∈ args.zip s.paramLanes, ∃ c, asLane sc a.1 a.2 = .ok c ∧
        Γ.Pushes c [a.2.carried] := by
      have hus' : us = (args.zip s.paramLanes).map fun a => a.2.carried := by
        rw [← hus, funcType, filterMap_valType? hvalues]
        conv_lhs => rw [← hsnd]
        rw [List.map_map]
        rfl
      rw [hus', List.forall₂_map_right_iff, List.forall₂_same] at heach
      exact heach
    intro arg harg
    rw [← hfst] at harg
    obtain ⟨a, ha, rfl⟩ := List.mem_map.mp harg
    obtain ⟨c, hc, hpush⟩ := hall a ha
    have hvoid := hvalues a.2 (hlanes a ha).2
    have hmeets := (asLane_pushes_iff hc).mp (by simpa [Lane.valType?_of_ne_void hvoid] using hpush)
    simpa [Scope.Meets, hvoid] using hmeets
  · rintro ⟨hvalues, hreliable⟩
    have hvalues := Signature.paramLanes_ne_void.mpr hvalues
    rw [funcType_params hlength]
    refine arguments_pushes h fun a ha => ?_
    rw [Scope.Meets, if_neg (hvalues a.2 (hlanes a ha).2)]
    exact hreliable a.1 (hlanes a ha).1

end Calls

/-! ## The module -/

/-- The function of this name, defined or imported, refers to this type declaration. -/
def Wat.Module.Refers (w : Wat.Module) (name : String) (t : Wat.FuncType) : Prop :=
  ((∃ f ∈ w.funcs, f.name = name ∧ f.encoded = t.encoded) ∨
    ∃ i ∈ w.imports, i.name = name ∧ i.item = .func t.encoded) ∧
  w.types.find? (fun u => u.encoded == t.encoded) = some t

/-- A call where the arguments are pushed by this code: the callee, and what the code pushes. -/
structure Wat.Module.CallSite (w : Wat.Module) (sc : Scope) (callee : String) (args : List ExprId)
    (pushing : Code) (s : Signature) (t : Wat.FuncType) : Prop where
  signature : signatureOf sc callee = .ok s
  refers : w.Refers callee t
  arity : args.length = s.params.length
  /-- An argument pushes the value of its parameter exactly if it suits it. -/
  each : ∀ Γ : StackContext, ∀ a ∈ args.zip s.paramLanes, ∃ c, asLane sc a.1 a.2 = .ok c ∧
    (Γ.Pushes c a.2.valType?.toList ↔ sc.Meets Γ a.1 a.2)
  /-- All of them together then push the parameters of the type. -/
  together : ∀ Γ : StackContext, (∀ a ∈ args.zip s.paramLanes, sc.Meets Γ a.1 a.2) →
    Γ.Pushes pushing t.params.reverse
  /-- Arguments of one value each do so only then. -/
  exactly : ∀ Γ : StackContext,
    (∀ arg ∈ args, ∃ own u, lower sc arg = .ok own ∧ Γ.Pushes own [u]) →
      (Γ.Pushes pushing t.params.reverse ↔
        (∀ ty ∈ s.params, ty ≠ .void) ∧ ∀ arg ∈ args, sc.Reliable Γ arg)

namespace Lower.ModuleLowers

variable {memory : Wat.MemoryImport} {arena : Arena} {info : ModuleInfo} {wat : Wat.Module}
variable (h : ModuleLowers memory arena info wat)

include h

theorem find_type_eq {s : Signature} (hs : s ∈ usedSignatures info) :
    wat.types.find? (fun t => t.encoded == s.encoded) = some (funcType s) := by
  rw [h.parts]
  exact find_type hs

/-- A function of the table refers to the type of its signature. -/
theorem refers_of_mem {name : String} {entry : FunctionEntry}
    (hentry : (name, entry) ∈ info.functions.entries) :
    wat.Refers name (funcType entry.signature) := by
  obtain ⟨f, hf, hname, -, hencoded⟩ := h.exists_func hentry
  refine ⟨.inl ⟨f, hf, hname, hencoded⟩, h.find_type_eq ?_⟩
  exact List.mem_append_right _ (List.mem_map_of_mem (List.mem_map_of_mem hentry))

/-- A function that can be called refers to the type of the signature that is found for it. -/
theorem refers_of_signatureOf {frame : Option Frame} {callee : String} {s : Signature}
    (hs : signatureOf ⟨info, arena, frame⟩ callee = .ok s) : wat.Refers callee (funcType s) := by
  unfold signatureOf at hs
  split at hs
  · next f hf =>
    cases hs
    exact h.refers_of_mem (Table.mem_of_get? hf)
  · split at hs
    · cases hs
    · next i hi =>
      obtain ⟨d, hd, hs⟩ := bind_ok.mp hs
      split at hs
      · next signature =>
        cases hs
        have hdescriptor := ImportEntry.resolved_ok hd
        have hmem := Table.mem_of_get? hi
        refine ⟨.inr ⟨⟨i.source, i.name, callee, .func s.encoded⟩, ?_, rfl, rfl⟩,
          h.find_type_eq ?_⟩
        · rw [h.parts]
          refine List.mem_filterMap.mpr ⟨_, hmem, ?_⟩
          simp only [importDecl?, hdescriptor]
        · refine List.mem_append_left _ (List.mem_filterMap.mpr ⟨i, List.mem_map_of_mem hmem, ?_⟩)
          simp only [hdescriptor, Option.bind_some]
          rfl
      · cases hs

/-- A lowered call pushes its arguments for the type that the callee refers to. -/
theorem callSite {frame : Option Frame} {id : ExprId} {callee : String} {args : List ExprId}
    {code : Code} (he : arena.expr? id = some (.call callee args))
    (hcode : lower ⟨info, arena, frame⟩ id = .ok code ∨
      Lower.discard ⟨info, arena, frame⟩ id = .ok code) :
    ∃ s t pushing after, wat.CallSite ⟨info, arena, frame⟩ callee args pushing s t ∧
      (after = [] ∨ after = [Instr.drop]) ∧
      code = pushing ++ .ofList (.call callee :: after) := by
  obtain ⟨s, pushing, hs, hlength, hpushing, after, hafter, rfl⟩ := lower_call he hcode
  refine ⟨s, funcType s, pushing, after, ?_, hafter, rfl⟩
  exact {
    signature := hs
    refers := h.refers_of_signatureOf hs
    arity := by simpa [Signature.paramLanes] using hlength
    each := fun Γ a ha => by
      obtain ⟨c, hc⟩ := arguments_each hpushing a ha
      exact ⟨c, hc, asLane_pushes_iff hc⟩
    together := fun Γ hmeets => by
      rw [funcType_params hlength]
      exact arguments_pushes hpushing hmeets
    exactly := fun Γ hone => arguments_pushes_iff hlength hpushing hone }

end Lower.ModuleLowers

namespace Lower.FunctionLowering

variable {info : ModuleInfo} {arena : Arena} {name : String} {entry : FunctionEntry} {f : Wat.Func}

/-- The parameters in the header of a function, in order. -/
theorem header_params (l : FunctionLowering info arena name entry f) :
    f.params.map Prod.snd = l.decl.signature.paramLanes.map Lane.carried := by
  have hfunc : f.params = variableTypes l.declared.params := congrArg Wat.Func.params l.func_eq
  simp [hfunc, variableTypes, l.declared_params, (functionFrame_eq l.params_eq).1,
    Signature.paramLanes, FunctionDecl.signature, Function.comp_def]

/-- The header of a function has the parameters of its type exactly if all of them have a value. -/
theorem header_iff (l : FunctionLowering info arena name entry f) :
    f.params.map Prod.snd = (funcType l.decl.signature).params ↔
      ∀ p ∈ l.decl.params, p.ty ≠ .void := by
  rw [l.header_params, funcType, filterMap_valType?_eq_iff, Signature.paramLanes_ne_void,
    FunctionDecl.signature, List.forall_mem_map]

end Lower.FunctionLowering

theorem Module.stmt?_of_mem_functionDecls {m : Module} {id : StmtId} {decl : FunctionDecl}
    (h : (id, decl) ∈ m.functionDecls) : m.arena.stmt? id = some (.function decl) := by
  obtain ⟨⟨_, s⟩, hitem, hs⟩ := List.mem_filterMap.mp h
  cases s <;> cases hs
  obtain ⟨_, -, hid⟩ := List.mem_filterMap.mp hitem
  obtain ⟨_, hstmt, heq⟩ := Option.map_eq_some_iff.mp hid
  cases heq
  exact hstmt

/-- In the target module of a module that was extracted and linked, the header of a function has the
result of its type declaration, and its parameters exactly if none is of type `void`; a call pushes
the parameters of the callee's type declaration exactly as `CallSite` says. -/
theorem headers_and_calls_agree_iff {m : Module} {base : Nat} {info info' : ModuleInfo}
    {infos linked : List ModuleInfo} {catalog : Catalog} {memory : Wat.MemoryImport}
    {s s' : EmitState} {wat : Wat.Module} (hextract : m.extract base = .ok info)
    (hinfo : info ∈ infos) (hlink : link infos catalog = .ok linked) (hinfo' : info' ∈ linked)
    (hname : info'.name = info.name)
    (hlower : lowerModule memory m.arena info' s = .ok wat s') :
    (∀ f ∈ wat.funcs, ∃ id decl t, (id, decl) ∈ m.functionDecls ∧ f.name = decl.name ∧
      wat.Refers f.name t ∧ t.encoded = f.encoded ∧ f.result = t.result ∧
      (f.params.map Prod.snd = t.params ↔ ∀ p ∈ decl.params, p.ty ≠ .void)) ∧
    ∀ frame id callee args code, m.arena.expr? id = some (.call callee args) →
      (lower ⟨info', m.arena, frame⟩ id = .ok code ∨
        Lower.discard ⟨info', m.arena, frame⟩ id = .ok code) →
      ∃ s t pushing after, wat.CallSite ⟨info', m.arena, frame⟩ callee args pushing s t ∧
        (after = [] ∨ after = [Instr.drop]) ∧
        code = pushing ++ .ofList (.call callee :: after) := by
  have hlinks := Linker.links_of_name hlink hinfo hinfo' hname
  have hlowers := lowerModule_ok hlower
  refine ⟨fun f hf => ?_, fun frame id callee args code he hcode => hlowers.callSite he hcode⟩
  obtain ⟨⟨name, entry⟩, hentry, ⟨l⟩⟩ := hlowers.exists_lowering hf
  -- The entry of the function is that of its declaration.
  have hfunctions : info'.functions = info.functions := by rw [hlinks.rest]
  have hrecorded := hentry
  rw [hfunctions, (Module.extract_records hextract).functions] at hrecorded
  obtain ⟨⟨id, decl⟩, hdecl, heq⟩ := List.mem_map.mp hrecorded
  cases heq
  have hsame : l.decl = decl :=
    Stmt.function.inj (Option.some.inj
      (l.decl_eq.symm.trans (Module.stmt?_of_mem_functionDecls hdecl)))
  have hfunc := l.func_eq
  have hheader := l.header_iff
  rw [hsame] at hfunc hheader
  have hfname : f.name = decl.name := congrArg Wat.Func.name hfunc
  refine ⟨id, decl, funcType decl.signature, hdecl, hfname, ?_,
    congrArg Wat.Func.encoded hfunc.symm, congrArg Wat.Func.result hfunc, hheader⟩
  rw [hfname]
  exact hlowers.refers_of_mem hentry

/-- A function with a parameter of type `void`, and a call of it. -/
def sink : Module where
  name := "sink"
  items := [1, 4]
  arena := {
    exprs := #[.int 7, .call "drain" [0]]
    stmts := #[
      .block [],
      .function ⟨"drain", [⟨"x", .void⟩], .void, 0, false⟩,
      .expr 1,
      .block [2],
      .function ⟨"main", [], .void, 3, true⟩] }

/-- The header of the function has a parameter that its type has not, and the call pushes a value
that the type does not ask for. -/
theorem sink_disagrees :
    ∃ info linked wat s', sink.extract 16 = .ok info ∧ link [info] {} = .ok [linked] ∧
      lowerModule {} sink.arena linked {} = .ok wat s' ∧
      (∃ f ∈ wat.funcs, ∃ t, f.name = "drain" ∧ wat.Refers "drain" t ∧
        f.params.map Prod.snd ≠ t.params) ∧
      ∃ t pushing after, wat.Refers "drain" t ∧
        Lower.discard ⟨linked, sink.arena, none⟩ 1 =
          .ok (pushing ++ .ofList (.call "drain" :: after)) ∧
        ∀ Γ : StackContext, ¬ Γ.Pushes pushing t.params.reverse := by
  have hrun : ((do
      let linked ← link [← sink.extract 16] {}
      linked.mapM fun info => do
        let code ← Lower.discard ⟨info, sink.arena, none⟩ 1
        let signature ← signatureOf ⟨info, sink.arena, none⟩ "drain"
        match lowerModule {} sink.arena info {} with
        | .ok wat _ => return (code, signature, wat.funcs.map Wat.Func.name)
        | .error e _ => .error e : Compiled (List (Code × Signature × List String))).toOption) =
      some [(.ofList [.intConst 7, .call "drain"], ⟨[.void], .void⟩, ["drain", "main"])] := by
    decide +kernel
  simp only [← eq_ok_iff, bind_ok, mapM_ok] at hrun
  obtain ⟨info, hinfo, linked, hlinked, hlowered⟩ := hrun
  cases hlowered with
  | @cons linked _ _ _ hlowered hrest =>
    cases hrest
    obtain ⟨code, hcode, signature, hsignature, hlowered⟩ := hlowered
    split at hlowered
    · next wat s' hlower =>
      have hpair := Except.ok.inj hlowered
      simp only [Prod.mk.injEq] at hpair
      obtain ⟨rfl, rfl, hnames⟩ := hpair
      have hname : linked.name = info.name := by
        cases (Linker.link_ok hlinked).2 with
        | cons hlinks _ => exact hlinks.name
      obtain ⟨hheaders, hcalls⟩ := headers_and_calls_agree_iff hinfo (List.mem_singleton.mpr rfl)
        hlinked (List.mem_singleton.mpr rfl) hname hlower
      refine ⟨info, linked, wat, s', hinfo, hlinked, hlower, ?_, ?_⟩
      · obtain ⟨f, hf, hfname⟩ : ∃ f ∈ wat.funcs, f.name = "drain" :=
          List.mem_map.mp (by rw [hnames]; exact List.mem_cons_self)
        obtain ⟨id, decl, t, hdecl, hdname, hrefers, -, -, hiff⟩ := hheaders f hf
        refine ⟨f, hf, t, hfname, hfname ▸ hrefers, fun heq => ?_⟩
        have hvoid : ∀ e ∈ sink.functionDecls, e.2.name = "drain" →
            e.2.params = [⟨"x", .void⟩] := by
          decide +kernel
        have hparams := hvoid _ hdecl (hdname.symm.trans hfname)
        exact hiff.mp heq ⟨"x", .void⟩ (by rw [hparams]; exact List.mem_cons_self) rfl
      · obtain ⟨s, t, pushing, after, hsite, -, heq⟩ :=
          hcalls none 1 "drain" [0] _ rfl (.inr hcode)
        refine ⟨t, pushing, after, hsite.refers, heq ▸ hcode, fun Γ hpushes => ?_⟩
        cases hsignature.symm.trans hsite.signature
        have hone : ∀ arg ∈ [0], ∃ own u,
            lower ⟨linked, sink.arena, none⟩ arg = .ok own ∧ Γ.Pushes own [u] := by
          intro arg harg
          cases List.mem_singleton.mp harg
          exact ⟨.one (.intConst 7), .i32, by rw [lower, descend_eq]; rfl, fun _ => rfl⟩
        exact ((hsite.exactly Γ hone).mp hpushes).1 .void List.mem_cons_self rfl
    · cases hlowered

end WasmBackend
