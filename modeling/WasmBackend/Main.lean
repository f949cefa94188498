import WasmBackend.Build.CommandLine

/-!
# The program

The command line on the real file system. External tools are not started from here: each is reported
as missing, so a build goes as far as the module texts.
-/

namespace WasmBackend.Main

/-- Is this the error number `n`? Some operations report it negated. -/
def isNumber (n : Nat) (code : UInt32) : Bool := code.toNat = n || code.toNat + n = 0x100000000

/-- The cause of a failed file operation. -/
def fileError : IO.Error → FileError
  | .noFileOrDirectory .. => .notFound
  | .permissionDenied .. => .permissionDenied
  | .alreadyExists .. => .alreadyExists
  | .inappropriateType _ code text =>
    if isNumber 20 code then .notADirectory
    else if isNumber 21 code then .isADirectory
    else .other text
  | .invalidArgument _ code text => if isNumber 36 code then .nameTooLong else .other text
  | e => .other (toString e)

/-- The result of a file operation, failed or not. -/
def attempt {α : Type} (action : IO α) : IO (Except FileError α) := do
  match ← action.toBaseIO with
  | .ok a => return .ok a
  | .error e => return .error (fileError e)

def fileSystem : Host IO where
  read := fun p => attempt (IO.FS.readFile p.text)
  write := fun p text => attempt (IO.FS.writeFile p.text text)
  makeDir := fun p => attempt (IO.FS.createDir p.text)
  isDir := fun p => do
    match ← (IO.FS.realPath (p.text ++ "/.")).toBaseIO with
    | .ok _ => return true
    | .error _ => return false
  run := fun _ => return .error .notFound

end WasmBackend.Main

def main (args : List String) : IO UInt32 := do
  let assembler ← IO.getEnv WasmBackend.assemblerVar
  let merger ← IO.getEnv WasmBackend.mergerVar
  let env (name : String) : Option String :=
    if name = WasmBackend.assemblerVar then assembler
    else if name = WasmBackend.mergerVar then merger
    else none
  let outcome ← WasmBackend.runCommand WasmBackend.Main.fileSystem env args
  IO.eprint outcome.stderr
  IO.print outcome.stdout
  return UInt32.ofNat outcome.code
