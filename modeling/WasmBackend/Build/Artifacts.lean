import WasmBackend.Build.Program

/-!
# Building

A build writes the text of every module, has each text assembled to a binary, and has the binaries
merged into one; how far it goes is an option. The assembler is called as
`<assembler> <input> -o <output>`, the merger with each binary followed by its module's name, then
`-o <output>`.
-/

namespace WasmBackend

inductive ToolError where
  | notFound (tool : Path) (setting : String)
  | failed (tool : Path) (code : Nat) (stderr : String)
  | spawn (tool : Path) (reason : FileError)
  deriving DecidableEq, Repr

def ToolError.message : ToolError → String
  | .notFound tool setting => "`" ++ tool.text ++ "` not found; install it or set " ++ setting
  | .failed tool code stderr =>
    "`" ++ tool.text ++ "` failed with exit code " ++ toString code ++ ": " ++ stderr
  | .spawn tool reason => "failed to run `" ++ tool.text ++ "`: " ++ reason.message

inductive BuildError where
  | options (e : OptionsError)
  | load (e : LoadError)
  | compile (e : CompileError)
  | tool (e : ToolError)
  | write (path : Path) (reason : FileError)
  deriving DecidableEq, Repr

def BuildError.message : BuildError → String
  | .options e => e.message
  | .load e => e.message
  | .compile e => e.message
  | .tool e => e.message
  | .write path reason => "failed to write '" ++ path.text ++ "': " ++ reason.message

def BuildError.ofProgram : ProgramError → BuildError
  | .load e => .load e
  | .compile e => .compile e

/-- What a build has produced. -/
structure Artifacts where
  wat : List Path := []
  wasm : List Path := []
  linked : Option Path := none
  deriving DecidableEq, Repr

namespace Tools

def assembleCommand (t : Tools) (input output : Path) : Command :=
  ⟨t.assembler, [input.text, "-o", output.text]⟩

def mergeCommand (t : Tools) (inputs : List (String × Path)) (output : Path) : Command :=
  ⟨t.merger, inputs.flatMap (fun (name, path) => [path.text, name]) ++ ["-o", output.text]⟩

end Tools

section

variable {m : Type → Type} [Monad m] (host : Host m)

/-- Runs a tool, which must succeed. -/
def runTool (command : Command) (setting : String) : ExceptT BuildError m Unit := do
  match ← host.run command with
  | .error .notFound => throw (.tool (.notFound command.program setting))
  | .error reason => throw (.tool (.spawn command.program reason))
  | .ok result =>
    if result.code ≠ 0 then
      let stderr := String.ofList (Text.trim result.stderr.toList)
      throw (.tool (.failed command.program result.code stderr))

/-- Writes a file, making the directories it lies in. -/
def writeFile (path : Path) (text : String) : ExceptT BuildError m Unit := do
  match path.parent? with
  | some dir =>
    match ← host.makeDirs dir with
    | .ok _ => pure ()
    | .error reason => throw (.write path reason)
  | none => pure ()
  match ← host.write path text with
  | .ok _ => pure ()
  | .error reason => throw (.write path reason)

/-- The program that options name, from the directory of its entry. -/
def compileEntry (o : Options) : ExceptT BuildError m Program := do
  let entry ← match o.entryModule with
    | .ok entry => pure entry
    | .error e => throw (.options e)
  let catalog ← match Catalog.builtin with
    | .ok catalog => pure catalog
    | .error e => throw (.compile e)
  let compiled : m (Except ProgramError Program) :=
    compile (loadFile host o.workDir) catalog o.dataBase o.memory entry
  match ← compiled with
  | .ok program => pure program
  | .error e => throw (.ofProgram e)

/-- Builds what the options ask for. -/
def build (o : Options) : ExceptT BuildError m Artifacts := do
  let program ← compileEntry host o
  let texts := program.modules.map fun (name, text) => (name, o.outDir.join ⟨name ++ ".wat"⟩, text)
  texts.forM fun (_, path, text) => writeFile host path text
  let wat := texts.map fun (_, path, _) => path
  if o.emit = .wat then return { wat }
  let binaries := texts.map fun (name, path, _) => (name, path, path.withExtension "wasm")
  binaries.forM fun (_, input, output) =>
    runTool host (o.tools.assembleCommand input output) assemblerVar
  let wasm := binaries.map fun (_, _, output) => output
  if o.emit = .wasm then return { wat, wasm }
  let output ← match o.outputPath with
    | .ok output => pure output
    | .error e => throw (.options e)
  let inputs := binaries.map fun (name, _, output) => (name, output)
  runTool host (o.tools.mergeCommand inputs output) mergerVar
  return { wat, wasm, linked := some output }

end

end WasmBackend
