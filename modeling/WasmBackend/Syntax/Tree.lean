import WasmBackend.Types
import WasmBackend.Number.Binary

/-!
# Syntax trees in an arena

A module's expressions and statements live in two arrays, and a node names its children by index.
Nodes may be shared. A well-formed module refers only to earlier nodes (`Syntax.Validate`), so a
traversal can always go by descending index; `descend` is that recursion, written once.

Expressions are untyped: lanes are derived when code is generated.
-/

namespace WasmBackend

/-- Index of an expression in its arena. -/
abbrev ExprId := Nat

/-- Index of a statement in its arena. -/
abbrev StmtId := Nat

/-! ## Operators -/

inductive BinaryOp where
  | add | sub | mul | div | rem
  | eq | notEq | lt | ltEq | gt | gtEq
  | and | or
  | bitAnd | bitOr | bitXor | shl | shr
  deriving DecidableEq, Repr, Inhabited

namespace BinaryOp

def all : List BinaryOp :=
  [add, sub, mul, div, rem, eq, notEq, lt, ltEq, gt, gtEq, and, or, bitAnd, bitOr, bitXor, shl, shr]

/-- The operator's name in stored syntax trees. -/
def name : BinaryOp → String
  | add => "Add"
  | sub => "Sub"
  | mul => "Mul"
  | div => "Div"
  | rem => "Rem"
  | eq => "Eq"
  | notEq => "NotEq"
  | lt => "Lt"
  | ltEq => "LtEq"
  | gt => "Gt"
  | gtEq => "GtEq"
  | and => "And"
  | or => "Or"
  | bitAnd => "BitAnd"
  | bitOr => "BitOr"
  | bitXor => "BitXor"
  | shl => "Shl"
  | shr => "Shr"

def ofName? (s : String) : Option BinaryOp := all.find? (fun op => op.name == s)

/-- The operator as it is written in source text. -/
def symbol : BinaryOp → String
  | add => "+"
  | sub => "-"
  | mul => "*"
  | div => "/"
  | rem => "%"
  | eq => "=="
  | notEq => "!="
  | lt => "<"
  | ltEq => "<="
  | gt => ">"
  | gtEq => ">="
  | and => "&&"
  | or => "||"
  | bitAnd => "&"
  | bitOr => "|"
  | bitXor => "^"
  | shl => "<<"
  | shr => ">>"

def isComparison : BinaryOp → Bool
  | eq => true
  | notEq => true
  | lt => true
  | ltEq => true
  | gt => true
  | gtEq => true
  | _ => false

def isLogical : BinaryOp → Bool
  | and => true
  | or => true
  | _ => false

/-- Operators without a floating-point counterpart. -/
def isIntegerOnly : BinaryOp → Bool
  | rem => true
  | bitAnd => true
  | bitOr => true
  | bitXor => true
  | shl => true
  | shr => true
  | _ => false

end BinaryOp

inductive PrefixOp where
  | neg | not | bitNot | deref
  deriving DecidableEq, Repr, Inhabited

namespace PrefixOp

def all : List PrefixOp := [neg, not, bitNot, deref]

def name : PrefixOp → String
  | neg => "Neg"
  | not => "Not"
  | bitNot => "BitNot"
  | deref => "Deref"

def ofName? (s : String) : Option PrefixOp := all.find? (fun op => op.name == s)

end PrefixOp

inductive PostfixOp where
  | increment | decrement
  deriving DecidableEq, Repr, Inhabited

namespace PostfixOp

def all : List PostfixOp := [increment, decrement]

def name : PostfixOp → String
  | increment => "Increment"
  | decrement => "Decrement"

def ofName? (s : String) : Option PostfixOp := all.find? (fun op => op.name == s)

end PostfixOp

/-! ## Expressions -/

/-- One initialiser of a struct literal. -/
structure FieldInit where
  name : String
  value : ExprId
  deriving DecidableEq, Inhabited

inductive Expr where
  | ident (name : String)
  | int (value : Int64)
  | float (value : Binary64)
  | bool (value : Bool)
  | char (value : Char)
  | str (content : String)
  | array (elements : List ExprId) (elementType : Option Ty)
  | struct (name : String) (fields : List FieldInit)
  | binary (op : BinaryOp) (left right : ExprId)
  | unary (op : PrefixOp) (operand : ExprId)
  | update (op : PostfixOp) (operand : ExprId)
  | call (callee : String) (args : List ExprId)
  | index (base position : ExprId)
  | member (base : ExprId) (name : String)
  | pointerMember (base : ExprId) (name : String)
  | assign (target value : ExprId)
  deriving DecidableEq, Inhabited

namespace Expr

/-- What the expression is called in messages. -/
def kindName : Expr → String
  | ident _ => "identifier"
  | int _ => "integer literal"
  | float _ => "float literal"
  | bool _ => "boolean literal"
  | char _ => "char literal"
  | str _ => "string literal"
  | array _ _ => "array literal"
  | struct _ _ => "struct literal"
  | binary _ _ _ => "infix expression"
  | unary _ _ => "prefix expression"
  | update _ _ => "postfix expression"
  | call _ _ => "call expression"
  | index _ _ => "index expression"
  | member _ _ => "member expression"
  | pointerMember _ _ => "pointer-member expression"
  | assign _ _ => "assignment"

/-- The operands, in evaluation order. -/
@[simp] def children : Expr → List ExprId
  | array elements _ => elements
  | struct _ fields => fields.map FieldInit.value
  | binary _ left right => [left, right]
  | unary _ operand => [operand]
  | update _ operand => [operand]
  | call _ args => args
  | index base position => [base, position]
  | member base _ => [base]
  | pointerMember base _ => [base]
  | assign target value => [target, value]
  | _ => []

/-- Literals that are kept in constant data and evaluate to an address. -/
def isDataLiteral : Expr → Bool
  | str _ => true
  | array _ _ => true
  | struct _ _ => true
  | _ => false

end Expr

/-! ## Statements and declarations -/

/-- A parameter of a function, or a field of a struct. -/
structure Binding where
  name : String
  ty : Ty
  deriving DecidableEq, Inhabited

structure FunctionDecl where
  name : String
  params : List Binding
  result : Ty
  body : StmtId
  exported : Bool
  deriving DecidableEq, Inhabited

structure StructDecl where
  name : String
  fields : List Binding
  exported : Bool
  deriving DecidableEq, Inhabited

structure ImportDecl where
  source : String
  names : List String
  deriving DecidableEq, Inhabited

structure LetDecl where
  name : String
  ty : Option Ty
  init : ExprId
  exported : Bool
  deriving DecidableEq, Inhabited

inductive Stmt where
  | block (stmts : List StmtId)
  | function (decl : FunctionDecl)
  | struct (decl : StructDecl)
  | importing (decl : ImportDecl)
  | letting (decl : LetDecl)
  | cond (condition : ExprId) (thenBranch : StmtId) (elseBranch : Option StmtId)
  | whileLoop (condition : ExprId) (body : StmtId)
  | forLoop (init : Option StmtId) (condition : ExprId) (update : Option ExprId) (body : StmtId)
  | ret (value : Option ExprId)
  | breakLoop
  | continueLoop
  | expr (e : ExprId)
  deriving DecidableEq, Inhabited

namespace Stmt

/-- What the statement is called in messages. -/
def kindName : Stmt → String
  | block _ => "block"
  | function _ => "function"
  | struct _ => "struct"
  | importing _ => "import"
  | letting _ => "let"
  | cond _ _ _ => "if"
  | whileLoop _ _ => "while"
  | forLoop _ _ _ _ => "for"
  | ret _ => "return"
  | breakLoop => "break"
  | continueLoop => "continue"
  | expr _ => "expression statement"

/-- The statements inside this one. -/
@[simp] def stmtChildren : Stmt → List StmtId
  | block stmts => stmts
  | function decl => [decl.body]
  | cond _ thenBranch elseBranch => thenBranch :: elseBranch.toList
  | whileLoop _ body => [body]
  | forLoop init _ _ body => init.toList ++ [body]
  | _ => []

/-- The expressions that stand directly in this statement. -/
@[simp] def exprChildren : Stmt → List ExprId
  | letting decl => [decl.init]
  | cond condition _ _ => [condition]
  | whileLoop condition _ => [condition]
  | forLoop _ condition update _ => condition :: update.toList
  | ret value => value.toList
  | expr e => [e]
  | _ => []

end Stmt

/-! ## Arenas and modules -/

structure Arena where
  exprs : Array Expr := #[]
  stmts : Array Stmt := #[]
  deriving DecidableEq, Inhabited

namespace Arena

def expr? (arena : Arena) (id : ExprId) : Option Expr := arena.exprs[id]?
def stmt? (arena : Arena) (id : StmtId) : Option Stmt := arena.stmts[id]?

def pushExpr (arena : Arena) (e : Expr) : Arena := { arena with exprs := arena.exprs.push e }
def pushStmt (arena : Arena) (s : Stmt) : Arena := { arena with stmts := arena.stmts.push s }

end Arena

structure Module where
  name : String
  items : List StmtId := []
  arena : Arena := {}
  deriving DecidableEq, Inhabited

namespace Module

/-- The top-level statements with their ids. -/
def itemStmts (m : Module) : List (StmtId × Stmt) :=
  m.items.filterMap fun id => (m.arena.stmt? id).map fun s => (id, s)

/-- The modules imported from, each once, in order of first mention. -/
def importSources (m : Module) : List String :=
  m.itemStmts.foldl (fun sources item =>
    match item.2 with
    | .importing decl => if sources.contains decl.source then sources else sources ++ [decl.source]
    | _ => sources) []

end Module

/-! ## Recursion down an arena -/

/-- The value at `id`, computed by `step` from the values at smaller indices. A child that is not an
earlier node gets `dangling` with its parent and itself. -/
def descend {α : Type} (dangling : Nat → Nat → α) (step : Nat → (Nat → α) → α) (id : Nat) : α :=
  step id fun child => if _h : child < id then descend dangling step child else dangling id child
termination_by id

theorem descend_eq {α : Type} (dangling : Nat → Nat → α) (step : Nat → (Nat → α) → α) (id : Nat) :
    descend dangling step id =
      step id fun child =>
        if child < id then descend dangling step child else dangling id child := by
  rw [descend]
  rfl

end WasmBackend
