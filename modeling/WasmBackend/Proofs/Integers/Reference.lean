import WasmBackend.Lower.Scope
import WasmBackend.Proofs.Integers.Machine

/-!
# Integer expressions and what they mean

Expressions on integers as trees, and their meaning as numbers: an evaluation goes from left to
right, gives a number and changes variables on the way, or traps. Numbers are mathematical integers
between `-2^31` and `2^31 - 1`. Arithmetic is done in the integers and **wrapped** back into that
range; only an operator on bits looks at the two's complement.

The machine and lowering play no part here. `Denotes` says which nodes of a module are integer
expressions, and which tree each of them is.
-/

namespace WasmBackend

/-! ## Numbers of 32 bits -/

namespace TwosComplement

/-- The number between `-2^31` and `2^31 - 1` that is the same modulo `2^32`. -/
def wrap (n : Int) : Int := n.bmod 0x100000000

/-- The number between `0` and `2^32 - 1` that is the same modulo `2^32`: the bits of `n`. -/
def bits (n : Int) : Nat := (n % 0x100000000).toNat

/-- One for true, zero for false. -/
def flag (b : Bool) : Int := if b then 1 else 0

theorem flag_bne_zero (x : Int) : flag (x != 0) = if x = 0 then 0 else 1 := by
  by_cases hx : x = 0 <;> simp [hx, flag]

theorem flag_eq_zero_or_one (b : Bool) : flag b = 0 ∨ flag b = 1 := by
  cases b <;> decide

end TwosComplement

open TwosComplement

namespace BinaryOp

/-- The result of a logical operator, if its left operand decides it. -/
def decided? : BinaryOp → Int → Option Int
  | .and, x => if x = 0 then some 0 else none
  | .or, x => if x = 0 then none else some 1
  | _, _ => none

/-- The result of an operator, or none if it traps. A logical operator comes here only if its left
operand has not decided it. Division truncates; it traps on zero, and where the quotient does not
fit. -/
def compute : BinaryOp → Int → Int → Option Int
  | .add, x, y => some (wrap (x + y))
  | .sub, x, y => some (wrap (x - y))
  | .mul, x, y => some (wrap (x * y))
  | .div, x, y => if y = 0 ∨ wrap (x.tdiv y) ≠ x.tdiv y then none else some (x.tdiv y)
  | .rem, x, y => if y = 0 then none else some (x.tmod y)
  | .eq, x, y => some (flag (x == y))
  | .notEq, x, y => some (flag (x != y))
  | .lt, x, y => some (flag (x < y))
  | .ltEq, x, y => some (flag (x ≤ y))
  | .gt, x, y => some (flag (y < x))
  | .gtEq, x, y => some (flag (y ≤ x))
  | .and, _, y => some (flag (y != 0))
  | .or, _, y => some (flag (y != 0))
  | .bitAnd, x, y => some (wrap (bits x &&& bits y : Nat))
  | .bitOr, x, y => some (wrap (bits x ||| bits y : Nat))
  | .bitXor, x, y => some (wrap (bits x ^^^ bits y : Nat))
  | .shl, x, y => some (wrap (x * Nat.pow 2 (bits y % 32)))
  | .shr, x, y => some (x / Nat.pow 2 (bits y % 32))

theorem decided?_eq_zero_or_one {op : BinaryOp} {x v : Int} (h : op.decided? x = some v) :
    v = 0 ∨ v = 1 := by
  unfold decided? at h
  split at h
  · split at h <;> cases h
    exact .inl rfl
  · split at h <;> cases h
    exact .inr rfl
  · cases h

theorem compute_eq_zero_or_one {op : BinaryOp} (hop : (op.isComparison || op.isLogical) = true)
    {x y v : Int} (h : op.compute x y = some v) : v = 0 ∨ v = 1 := by
  cases op <;> cases hop <;> cases h <;> exact flag_eq_zero_or_one _

end BinaryOp

/-- What counting adds. -/
def PostfixOp.amount : PostfixOp → Int
  | .increment => 1
  | .decrement => -1

/-! ## Expressions -/

/-- Expressions over integers, with variables in place of names. -/
inductive IntExpr where
  | int (n : Int)
  | bool (b : Bool)
  | char (c : Char)
  | var (r : Register)
  | binary (op : BinaryOp) (left right : IntExpr)
  | neg (operand : IntExpr)
  | not (operand : IntExpr)
  | bitNot (operand : IntExpr)
  | update (op : PostfixOp) (r : Register)
  | assign (r : Register) (value : IntExpr)

/-- From the values of the variables to a result and their new values, or to a trap. -/
abbrev Meaning := Store Int → Option (Int × Store Int)

namespace IntExpr

/-- The meaning of an expression. -/
def eval : IntExpr → Meaning
  | int n, s => some (wrap n, s)
  | bool b, s => some (flag b, s)
  | char c, s => some (c.toNat, s)
  | var r, s => some (s r, s)
  | binary op left right, s => do
    let (x, s) ← left.eval s
    match op.decided? x with
    | some v => return (v, s)
    | none =>
      let (y, s) ← right.eval s
      return (← op.compute x y, s)
  | neg operand, s => do
    let (x, s) ← operand.eval s
    return (wrap (-x), s)
  | not operand, s => do
    let (x, s) ← operand.eval s
    return (flag (x == 0), s)
  | bitNot operand, s => do
    let (x, s) ← operand.eval s
    return (-x - 1, s)
  | update op r, s => some (s r, s.set r (wrap (s r + op.amount)))
  | assign r value, s => do
    let (x, s) ← value.eval s
    return (x, s.set r x)

/-- Comparisons and logical operators give booleans, and so does what is assigned from one. -/
def lane : IntExpr → Lane
  | bool _ => .bool
  | binary op _ _ => if op.isComparison || op.isLogical then .bool else .int
  | not _ => .bool
  | assign _ value => value.lane
  | _ => .int

theorem lane_eq_int_or_bool (t : IntExpr) : t.lane = .int ∨ t.lane = .bool := by
  induction t with
  | bool b | not operand => exact .inr rfl
  | binary op left right =>
    unfold lane
    split
    · exact .inr rfl
    · exact .inl rfl
  | assign r value ih => exact ih
  | _ => exact .inl rfl

/-- A boolean is zero or one. -/
theorem eval_bool {t : IntExpr} (ht : t.lane = .bool) {s s' : Store Int} {v : Int}
    (h : t.eval s = some (v, s')) : v = 0 ∨ v = 1 := by
  induction t generalizing s s' v with
  | bool b =>
    cases h
    exact flag_eq_zero_or_one b
  | binary op left right =>
    have hop : (op.isComparison || op.isLogical) = true := by
      by_cases hop : (op.isComparison || op.isLogical) = true
      · exact hop
      · simp [lane, hop] at ht
    simp only [eval, Option.bind_eq_bind, Option.bind_eq_some_iff] at h
    obtain ⟨⟨x, s₁⟩, -, h⟩ := h
    cases hdecided : op.decided? x with
    | some b =>
      simp only [hdecided] at h
      cases h
      exact BinaryOp.decided?_eq_zero_or_one hdecided
    | none =>
      simp only [hdecided, Option.bind_eq_some_iff] at h
      obtain ⟨⟨y, s₂⟩, -, z, hz, h⟩ := h
      cases h
      exact BinaryOp.compute_eq_zero_or_one hop hz
  | not operand =>
    simp only [eval, Option.bind_eq_bind, Option.bind_eq_some_iff] at h
    obtain ⟨⟨x, s₁⟩, -, h⟩ := h
    cases h
    exact flag_eq_zero_or_one _
  | assign r value ih =>
    simp only [eval, Option.bind_eq_bind, Option.bind_eq_some_iff] at h
    obtain ⟨⟨x, s₁⟩, hx, h⟩ := h
    cases h
    exact ih ht hx
  | _ => cases ht

end IntExpr

/-! ## Integer expressions of a module -/

/-- The register of a variable. Constant data has none. -/
def Variable.register? (v : Variable) : Option Register :=
  match v.scope with
  | .localVar => some (.localVar v.name)
  | .param => some (.localVar v.name)
  | .global => some (.globalVar v.name)
  | _ => none

/-- A name of type `i32` that means a variable with a register. -/
def Scope.Names (sc : Scope) (id : ExprId) (v : Variable) (r : Register) : Prop :=
  ∃ name, sc.arena.expr? id = some (.ident name) ∧ sc.lookup name = .ok v ∧ v.ty = .i32 ∧
    v.register? = some r

/-- The node is this integer expression. -/
inductive Scope.Denotes (sc : Scope) : ExprId → IntExpr → Prop
  | int {id : ExprId} {n : Int64} (he : sc.arena.expr? id = some (.int n)) :
    Denotes sc id (.int n.toInt)
  | bool {id : ExprId} {b : Bool} (he : sc.arena.expr? id = some (.bool b)) :
    Denotes sc id (.bool b)
  | char {id : ExprId} {c : Char} (he : sc.arena.expr? id = some (.char c)) :
    Denotes sc id (.char c)
  | ident {id : ExprId} {v : Variable} {r : Register} (hv : sc.Names id v r) :
    Denotes sc id (.var r)
  | binary {id left right : ExprId} {op : BinaryOp} {a b : IntExpr}
    (he : sc.arena.expr? id = some (.binary op left right)) (ha : Denotes sc left a)
    (hb : Denotes sc right b) : Denotes sc id (.binary op a b)
  | neg {id operand : ExprId} {a : IntExpr} (he : sc.arena.expr? id = some (.unary .neg operand))
    (ha : Denotes sc operand a) : Denotes sc id (.neg a)
  | not {id operand : ExprId} {a : IntExpr} (he : sc.arena.expr? id = some (.unary .not operand))
    (ha : Denotes sc operand a) : Denotes sc id (.not a)
  | bitNot {id operand : ExprId} {a : IntExpr}
    (he : sc.arena.expr? id = some (.unary .bitNot operand)) (ha : Denotes sc operand a) :
    Denotes sc id (.bitNot a)
  | update {id operand : ExprId} {op : PostfixOp} {v : Variable} {r : Register}
    (he : sc.arena.expr? id = some (.update op operand)) (hv : sc.Names operand v r) :
    Denotes sc id (.update op r)
  | assign {id target value : ExprId} {v : Variable} {r : Register} {a : IntExpr}
    (he : sc.arena.expr? id = some (.assign target value)) (hv : sc.Names target v r)
    (ha : Denotes sc value a) : Denotes sc id (.assign r a)

end WasmBackend
