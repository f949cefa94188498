import WasmBackend.Wat.Instr

/-!
# Structured code

Code comes on two levels. `Code` computes values: instructions in sequence, and a two-armed `if`
that yields an integer, which is all that short-circuit operators need. `Body` is control flow:
blocks, loops, branches, conditionals and returns around pieces of `Code`, each piece a unit that
runs from its first instruction to its last.

Both are sequences built from their front, so a plain induction reaches every nested part, and
appending is recursion on the first sequence.

`lines` flattens code to the bracketed form in which it is printed.
-/

namespace WasmBackend

/-- One line of printed code. -/
inductive Line where
  | instr (i : Instr)
  | block (label : Label)
  | loop (label : Label)
  | cond (result : Option ValType)
  | otherwise
  | close
  deriving DecidableEq

def Line.text : Line → String
  | .instr i => i.text
  | .block label => "block " ++ label.text
  | .loop label => "loop " ++ label.text
  | .cond none => "if"
  | .cond (some t) => "if (result " ++ t.text ++ ")"
  | .otherwise => "else"
  | .close => "end"

/-! ## Code that computes values -/

inductive Code where
  | nil
  | instr (i : Instr) (rest : Code)
  | choose (thenCode elseCode rest : Code)
  deriving DecidableEq

namespace Code

instance : Inhabited Code := ⟨nil⟩

def append : Code → Code → Code
  | nil, d => d
  | instr i rest, d => instr i (rest.append d)
  | choose a b rest, d => choose a b (rest.append d)

instance : Append Code := ⟨append⟩

theorem append_assoc (a b c : Code) : a ++ b ++ c = a ++ (b ++ c) := by
  have happ : ∀ c d : Code, c ++ d = c.append d := fun _ _ => rfl
  simp only [happ]
  induction a with
  | nil => rfl
  | instr i rest ih => exact congrArg (instr i) ih
  | choose thenCode elseCode rest _ _ ih => exact congrArg (choose thenCode elseCode) ih

def ofList : List Instr → Code
  | [] => nil
  | i :: rest => instr i (ofList rest)

/-- One instruction. -/
def one (i : Instr) : Code := instr i nil

/-- Takes an integer from the stack and goes on with one arm; either leaves an integer. -/
def ifElse (thenCode elseCode : Code) : Code := choose thenCode elseCode nil

def lines : Code → List Line
  | nil => []
  | instr i rest => .instr i :: rest.lines
  | choose a b rest =>
    .cond (some .i32) :: (a.lines ++ .otherwise :: (b.lines ++ .close :: rest.lines))

end Code

/-! ## Control flow -/

inductive Body where
  | done
  | run (code : Code) (rest : Body)
  | block (label : Label) (inner rest : Body)
  | loop (label : Label) (inner rest : Body)
  | branch (label : Label) (rest : Body)
  | branchUnless (condition : Code) (label : Label) (rest : Body)
  | cond (condition : Code) (result : Option ValType) (thenArm rest : Body)
  | condElse (condition : Code) (result : Option ValType) (thenArm elseArm rest : Body)
  | ret (value : Code) (rest : Body)
  | unreachable (rest : Body)
  deriving DecidableEq

namespace Body

instance : Inhabited Body := ⟨done⟩

def append : Body → Body → Body
  | done, d => d
  | run code rest, d => run code (rest.append d)
  | block label inner rest, d => block label inner (rest.append d)
  | loop label inner rest, d => loop label inner (rest.append d)
  | branch label rest, d => branch label (rest.append d)
  | branchUnless condition label rest, d => branchUnless condition label (rest.append d)
  | cond condition result thenArm rest, d => cond condition result thenArm (rest.append d)
  | condElse condition result thenArm elseArm rest, d =>
    condElse condition result thenArm elseArm (rest.append d)
  | ret value rest, d => ret value (rest.append d)
  | unreachable rest, d => unreachable (rest.append d)

instance : Append Body := ⟨append⟩

/-- The lines of a branch taken when the condition is zero. -/
def branchUnlessLines (condition : Code) (label : Label) : List Line :=
  condition.lines ++ [.instr .intEqz, .instr (.branchIf label)]

/-- The lines that open a conditional. -/
def condLines (condition : Code) (result : Option ValType) : List Line :=
  condition.lines ++ [.cond result]

def lines : Body → List Line
  | done => []
  | run code rest => code.lines ++ rest.lines
  | block label inner rest => .block label :: (inner.lines ++ .close :: rest.lines)
  | loop label inner rest => .loop label :: (inner.lines ++ .close :: rest.lines)
  | branch label rest => .instr (.branch label) :: rest.lines
  | branchUnless condition label rest => branchUnlessLines condition label ++ rest.lines
  | cond condition result thenArm rest =>
    condLines condition result ++ (thenArm.lines ++ .close :: rest.lines)
  | condElse condition result thenArm elseArm rest =>
    condLines condition result ++
      (thenArm.lines ++ .otherwise :: (elseArm.lines ++ .close :: rest.lines))
  | ret value rest => value.lines ++ .instr .ret :: rest.lines
  | unreachable rest => .instr .unreachable :: rest.lines

end Body

end WasmBackend
