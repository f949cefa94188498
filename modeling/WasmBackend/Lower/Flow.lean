import WasmBackend.Syntax.Tree

/-!
# Does control come out at the end?

Two answers to whether a statement always returns. `returns` takes the body of a loop for the loop;
`neverFallsThrough` does not, because a loop may run no iteration at all. The first decides whether
a conditional is given a result type, the second whether the end of a statement can be reached.
-/

namespace WasmBackend.Arena

def returnsStep (arena : Arena) (id : StmtId) (sub : StmtId → Bool) : Bool :=
  match arena.stmt? id with
  | some (.ret _) => true
  | some (.block stmts) => stmts.any sub
  | some (.cond _ thenBranch (some elseBranch)) => sub thenBranch && sub elseBranch
  | some (.whileLoop _ body) => sub body
  | some (.forLoop _ _ _ body) => sub body
  | some (.function decl) => sub decl.body
  | _ => false

/-- Does the statement return, if its loops run? -/
def returns (arena : Arena) : StmtId → Bool := descend (fun _ _ => false) (returnsStep arena)

def neverFallsThroughStep (arena : Arena) (id : StmtId) (sub : StmtId → Bool) : Bool :=
  match arena.stmt? id with
  | some (.ret _) => true
  | some (.block stmts) => stmts.any sub
  | some (.cond _ thenBranch (some elseBranch)) => sub thenBranch && sub elseBranch
  | _ => false

/-- Is the statement's end out of reach? -/
def neverFallsThrough (arena : Arena) : StmtId → Bool :=
  descend (fun _ _ => false) (neverFallsThroughStep arena)

end WasmBackend.Arena
