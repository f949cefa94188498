import WasmBackend.Syntax.Validate

/-!
# Compile errors

Every way in which a module can be rejected, as one type, with its wording, its code and its
category. A failed import resolution wraps the reason together with where it happened; code and
category are those of the reason.
-/

namespace WasmBackend

inductive SymbolKind where
  | struct | member | function | exported | imported | globalVar | localVar | moduleName
  deriving DecidableEq, Repr

namespace SymbolKind

def all : List SymbolKind :=
  [struct, member, function, exported, imported, globalVar, localVar, moduleName]

def text : SymbolKind → String
  | struct => "struct"
  | member => "member"
  | function => "function"
  | exported => "export"
  | imported => "import"
  | globalVar => "global"
  | localVar => "local"
  | moduleName => "module"

end SymbolKind

inductive ErrorCategory where
  | duplicateDefinition
  | unresolvedReference
  | unsupportedConstruct
  | layout
  deriving DecidableEq, Repr

/-- A code's thousands digit is its category, the rest numbers the causes within it. -/
structure ErrorCode where
  category : ErrorCategory
  number : Nat
  deriving DecidableEq, Repr

def ErrorCategory.digit : ErrorCategory → Nat
  | .duplicateDefinition => 1
  | .unresolvedReference => 2
  | .unsupportedConstruct => 3
  | .layout => 4

def ErrorCode.text (c : ErrorCode) : String := "E" ++ toString (1000 * c.category.digit + c.number)

inductive CompileError where
  | duplicateDefinition (kind : SymbolKind) (name : String)
  | unknownVariable (name : String)
  | unknownStruct (name : String)
  | unknownMember (structName member : String)
  | unknownFunction (name : String)
  | missingModule (source : String)
  | unknownStdlibExport (source name : String)
  | unknownExport (source name : String)
  | unresolvedImport (name : String)
  | noEnclosingLoop (statement : String)
  | danglingNode (node : DanglingNode)
  | notImplemented (construct : String)
  | unsupportedLiteral (reason : String)
  | arityMismatch (callee : String) (expected found : Nat)
  | invalidAlignment (align : Nat)
  | malformedSignature (signature : String)
  | addressOverflow (size : Nat)
  | link (moduleName imported : String) (reason : CompileError)
  deriving DecidableEq, Repr

namespace CompileError

def message : CompileError → String
  | duplicateDefinition kind name => "duplicate " ++ kind.text ++ " definition `" ++ name ++ "`"
  | unknownVariable name => "unknown variable `" ++ name ++ "`"
  | unknownStruct name => "unknown struct `" ++ name ++ "`"
  | unknownMember structName member =>
    "struct `" ++ structName ++ "` has no member `" ++ member ++ "`"
  | unknownFunction name => "unknown function `" ++ name ++ "`"
  | missingModule source => "module `" ++ source ++ "` is not in the working set"
  | unknownStdlibExport source name =>
    "standard library module `" ++ source ++ "` does not export `" ++ name ++ "`"
  | unknownExport source name => "module `" ++ source ++ "` does not export `" ++ name ++ "`"
  | unresolvedImport name => "import `" ++ name ++ "` has not been resolved"
  | noEnclosingLoop statement => "`" ++ statement ++ "` outside of a loop"
  | danglingNode node => node.message
  | notImplemented construct => construct ++ " is not implemented"
  | unsupportedLiteral reason => "unsupported literal: " ++ reason
  | arityMismatch callee expected found =>
    "`" ++ callee ++ "` expects " ++ toString expected ++ " argument(s), found " ++ toString found
  | invalidAlignment align => "alignment must be positive, got " ++ toString align
  | malformedSignature signature => "malformed signature `" ++ signature ++ "`"
  | addressOverflow size =>
    "constant data of " ++ toString size ++ " bytes does not fit in the 32-bit address space"
  | link moduleName imported reason =>
    "in module `" ++ moduleName ++ "`, import `" ++ imported ++ "`: " ++ reason.message

/-- The innermost reason. -/
def root : CompileError → CompileError
  | link _ _ reason => reason.root
  | e => e

def code : CompileError → ErrorCode
  | duplicateDefinition _ _ => ⟨.duplicateDefinition, 1⟩
  | unknownVariable _ => ⟨.unresolvedReference, 1⟩
  | unknownStruct _ => ⟨.unresolvedReference, 2⟩
  | unknownMember _ _ => ⟨.unresolvedReference, 3⟩
  | unknownFunction _ => ⟨.unresolvedReference, 4⟩
  | missingModule _ => ⟨.unresolvedReference, 5⟩
  | unknownStdlibExport _ _ => ⟨.unresolvedReference, 6⟩
  | unknownExport _ _ => ⟨.unresolvedReference, 7⟩
  | unresolvedImport _ => ⟨.unresolvedReference, 8⟩
  | noEnclosingLoop _ => ⟨.unresolvedReference, 9⟩
  | danglingNode _ => ⟨.unresolvedReference, 10⟩
  | notImplemented _ => ⟨.unsupportedConstruct, 1⟩
  | unsupportedLiteral _ => ⟨.unsupportedConstruct, 2⟩
  | arityMismatch _ _ _ => ⟨.unsupportedConstruct, 3⟩
  | invalidAlignment _ => ⟨.layout, 1⟩
  | malformedSignature _ => ⟨.layout, 2⟩
  | addressOverflow _ => ⟨.layout, 3⟩
  | link _ _ reason => reason.code

def category (e : CompileError) : ErrorCategory := e.code.category

/-- A child that is not an earlier expression. -/
def danglingExpr (parent child : ExprId) : CompileError := danglingNode ⟨.expr parent, .expr child⟩

/-- A child that is not an earlier statement. -/
def danglingStmt (parent child : StmtId) : CompileError := danglingNode ⟨.stmt parent, .stmt child⟩

end CompileError

/-- The outcome of a compilation step. -/
abbrev Compiled (α : Type) := Except CompileError α

end WasmBackend
