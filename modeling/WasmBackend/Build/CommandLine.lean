import WasmBackend.Build.Artifacts

/-!
# The command line

`build` writes files and says which, `emit` prints the module texts, `help` explains both. A command
line is answered with what goes to the two output streams and an exit code.
-/

namespace WasmBackend

/-- What a command printed, and its exit code. -/
structure Outcome where
  code : Nat := 0
  stdout : String := ""
  stderr : String := ""
  deriving DecidableEq, Repr

def usage : String :=
  "Ember compiler back end\n\n" ++
  "Usage: ember <command> [options]\n\n" ++
  "Commands:\n" ++
  "  build <entry.ast.json>   Compile a module and the modules it imports\n" ++
  "  emit <entry.ast.json>    Print the module text of every module\n" ++
  "  help                     Show this message\n\n" ++
  "Build options:\n" ++
  "  -o, --output <path>      Linked output (default: <out-dir>/<entry>.wasm)\n" ++
  "  --out-dir <dir>          Directory for .wat/.wasm files (default: entry's directory)\n" ++
  "  --emit=<kind>            wat, wasm or linked (default: linked)\n" ++
  "  --data-base <n>          First constant-data address (default: 16)\n" ++
  "  --memory-pages=<n>       Minimum memory size in 64 KiB pages (default: 1)\n\n" ++
  "Environment:\n" ++
  "  EMBER_WAT2WASM           Path of the text-to-binary assembler\n" ++
  "  EMBER_WASM_MERGE         Path of the module linker\n" ++
  "  EMBER_LOG                Log filter (falls back to RUST_LOG)\n"

/-- How an error is reported. -/
def BuildError.report : BuildError → String
  | .compile e => "error[" ++ e.code.text ++ "]: " ++ e.message ++ "\n"
  | .options e => "error: " ++ e.message ++ "\nRun 'ember help' for usage.\n"
  | e => "error: " ++ e.message ++ "\n"

/-- The files that a build was asked for. -/
def Artifacts.requested (a : Artifacts) : EmitKind → List Path
  | .wat => a.wat
  | .wasm => a.wasm
  | .linked => a.linked.toList

section

variable {m : Type → Type} [Monad m] (host : Host m)

def runBuild (env : String → Option String) (args : List String) : ExceptT BuildError m String := do
  match Options.ofArgs args with
  | .error e => throw (.options e)
  | .ok o =>
    let o := o.applyEnv env
    let artifacts ← build host o
    return "".intercalate ((artifacts.requested o.emit).map fun p => "wrote " ++ p.text ++ "\n")

def runEmit (args : List String) : ExceptT BuildError m String := do
  match Options.ofArgs args with
  | .error e => throw (.options e)
  | .ok o =>
    let program ← compileEntry host o
    return "".intercalate (program.modules.map fun (name, text) =>
      ";; module " ++ name ++ "\n" ++ text)

/-- The outcome of a command that prints something or fails. -/
def outcomeOf (x : ExceptT BuildError m String) : m Outcome := do
  match ← x.run with
  | .ok stdout => return { stdout }
  | .error e => return { code := 1, stderr := e.report }

/-- Runs a command line. -/
def runCommand (env : String → Option String) : List String → m Outcome
  | [] => pure { stdout := usage }
  | command :: args =>
    match command with
    | "build" => outcomeOf (runBuild host env args)
    | "emit" => outcomeOf (runEmit host args)
    | "help" | "--help" | "-h" => pure { stdout := usage }
    | other => pure
      { code := 1, stdout := usage, stderr := "error: unknown command '" ++ other ++ "'\n\n" }

end

end WasmBackend
