import WasmBackend.Build.Host
import WasmBackend.Build.Options
import WasmBackend.Json.Reader
import WasmBackend.Syntax.Json
import WasmBackend.Syntax.Validate

/-!
# Loading modules

A module is loaded by name. From a directory, it is the tree stored under that name: the file must
hold one JSON value that reads as a well-formed module of the same name, and faults are found in
that order.
-/

namespace WasmBackend

inductive LoadError where
  | notFound (name : String) (path : Path)
  | unreadable (path : Path) (reason : FileError)
  | unparsable (path : Path)
  | nameMismatch (path : Path) (expected found : String)
  | malformed (path : Path) (node : DanglingNode)
  | unknown (name : String)
  deriving DecidableEq, Repr

def LoadError.message : LoadError → String
  | .notFound name path => "module `" ++ name ++ "` not found at '" ++ path.text ++ "'"
  | .unreadable path reason => "failed to read '" ++ path.text ++ "': " ++ reason.message
  | .unparsable path =>
    "failed to parse the AST in '" ++ path.text ++ "': the text is not a stored module"
  | .nameMismatch path expected found =>
    "'" ++ path.text ++ "' holds module `" ++ found ++ "`, expected `" ++ expected ++ "`"
  | .malformed path node => "malformed AST in '" ++ path.text ++ "': " ++ node.message
  | .unknown name => "module `" ++ name ++ "` is not available"

/-- The module that a text holds. -/
def Module.parse? (text : String) : Option Module :=
  (Json.parse? text).bind (Module.ofJson? .positional)

/-- The file of a module in a directory. -/
def modulePath (dir : Path) (name : String) : Path := dir.join ⟨name ++ treeSuffix⟩

/-- The module of this name that the contents of its file hold. -/
def loadText (path : Path) (name text : String) : Except LoadError Module :=
  match Module.parse? text with
  | none => .error (.unparsable path)
  | some m =>
    match m.validate with
    | .error node => .error (.malformed path node)
    | .ok _ => if m.name = name then .ok m else .error (.nameMismatch path name m.name)

/-- Loads a module from a directory. -/
def loadFile {m : Type → Type} [Monad m] (host : Host m) (dir : Path) (name : String) :
    m (Except LoadError Module) := do
  let path := modulePath dir name
  match ← host.read path with
  | .error .notFound => return .error (.notFound name path)
  | .error reason => return .error (.unreadable path reason)
  | .ok text => return loadText path name text

/-- Loads from a list of modules; of two with the same name the later one counts. -/
def loadFrom (modules : List Module) (name : String) : Except LoadError Module :=
  match modules.reverse.find? (fun m => m.name == name) with
  | some m => .ok m
  | none => .error (.unknown name)

end WasmBackend
