import WasmBackend.Build.Path
import WasmBackend.Data.Image
import WasmBackend.Wat.Module

/-!
# Build options

What the command line says about a build. Later options win over earlier ones of the same kind; the
first thing wrong is reported. The entry module is named by the file it is stored in.
-/

namespace WasmBackend

/-- The ending of files that hold syntax trees. -/
def treeSuffix : String := ".ast.json"

inductive EmitKind where
  | wat
  | wasm
  | linked
  deriving DecidableEq, Repr

def EmitKind.ofName? : String → Option EmitKind
  | "wat" => some .wat
  | "wasm" => some .wasm
  | "linked" => some .linked
  | _ => none

inductive OptionsError where
  | missingEntry
  | missingValue (flag : String)
  | unknownFlag (flag : String)
  | invalidEmit (value : String)
  | invalidNumber (flag value : String)
  | invalidEntry (path : Path)
  deriving DecidableEq, Repr

def OptionsError.message : OptionsError → String
  | .missingEntry => "missing entry module path"
  | .missingValue flag => "`" ++ flag ++ "` expects a value"
  | .unknownFlag flag => "unknown option `" ++ flag ++ "`"
  | .invalidEmit value =>
    "unknown emit kind `" ++ value ++ "`, expected one of: wat, wasm, linked"
  | .invalidNumber flag value => "`" ++ flag ++ "` expects a number, got `" ++ value ++ "`"
  | .invalidEntry path => "entry path '" ++ path.text ++ "' has no module name"

/-- The programs that turn text into binaries, and binaries into one. -/
structure Tools where
  assembler : Path := ⟨"wat2wasm"⟩
  merger : Path := ⟨"wasm-merge"⟩
  deriving DecidableEq, Repr, Inhabited

/-- The variables that name the tools. -/
def assemblerVar : String := "EMBER_WAT2WASM"
def mergerVar : String := "EMBER_WASM_MERGE"

structure Options where
  entry : Path := ⟨""⟩
  outDirOption : Option Path := none
  outputOption : Option Path := none
  emit : EmitKind := .linked
  dataBase : Nat := DataImage.defaultBase
  memory : Wat.MemoryImport := {}
  tools : Tools := {}
  deriving DecidableEq, Repr

/-- What follows a given beginning. -/
def afterPrefix? (start s : String) : Option String :=
  if start.toList.isPrefixOf s.toList then some (String.ofList (s.toList.drop start.length))
  else none

/-- What precedes a given ending. -/
def beforeSuffix? (ending s : String) : Option String :=
  if ending.toList.isSuffixOf s.toList then
    some (String.ofList (s.toList.take (s.length - ending.length)))
  else none

/-- An unsigned number of 32 bits: decimal digits, after a plus sign if there is one. -/
def number32? (s : String) : Option Nat :=
  let digits := match s.toList with
    | '+' :: rest => rest
    | cs => cs
  if digits.isEmpty || !digits.all Char.isDigit then none
  else
    let n : Nat := digits.foldl (fun acc c => 10 * acc + (c.toNat - '0'.toNat)) 0
    if n < 0x100000000 then some n else none

namespace Options

/-- The entry module's name: its file's name without the ending of stored trees. -/
def entryModule (o : Options) : Except OptionsError String :=
  match o.entry.fileName? with
  | none => .error (.invalidEntry o.entry)
  | some file =>
    let name := (beforeSuffix? treeSuffix file).getD ((beforeSuffix? ".json" file).getD file)
    if name.isEmpty then .error (.invalidEntry o.entry) else .ok name

/-- The directory of the entry module, where its siblings are too. -/
def workDir (o : Options) : Path :=
  match o.entry.parent? with
  | some p => if p.text.isEmpty then ⟨"."⟩ else p
  | none => ⟨"."⟩

def outDir (o : Options) : Path := o.outDirOption.getD o.workDir

/-- Where the linked binary goes. -/
def outputPath (o : Options) : Except OptionsError Path :=
  match o.outputOption with
  | some p => .ok p
  | none => do return o.outDir.join ⟨(← o.entryModule) ++ ".wasm"⟩

/-! ## The command line -/

def parseNumber (flag value : String) : Except OptionsError Nat :=
  match number32? value with
  | some n => .ok n
  | none => .error (.invalidNumber flag value)

/-- An option that takes its value after an equals sign. -/
def parseAssigned (o : Options) (arg : String) : Option (Except OptionsError Options) :=
  match afterPrefix? "--output=" arg with
  | some value => some (.ok { o with outputOption := some ⟨value⟩ })
  | none =>
  match afterPrefix? "--out-dir=" arg with
  | some value => some (.ok { o with outDirOption := some ⟨value⟩ })
  | none =>
  match afterPrefix? "--emit=" arg with
  | some value => some (match EmitKind.ofName? value with
    | some emit => .ok { o with emit }
    | none => .error (.invalidEmit value))
  | none =>
  match afterPrefix? "--data-base=" arg with
  | some value => some ((parseNumber "--data-base" value).map fun n => { o with dataBase := n })
  | none =>
  match afterPrefix? "--memory-pages=" arg with
  | some value => some ((parseNumber "--memory-pages" value).map fun n =>
      { o with memory := { o.memory with pages := n } })
  | none => none

/-- An option that takes the next argument as its value. -/
def parseValued (o : Options) (flag value : String) : Except OptionsError Options :=
  if flag = "--out-dir" then .ok { o with outDirOption := some ⟨value⟩ }
  else if flag = "--data-base" then (parseNumber flag value).map fun n => { o with dataBase := n }
  else .ok { o with outputOption := some ⟨value⟩ }

def isValued (flag : String) : Bool :=
  flag = "-o" || flag = "--output" || flag = "--out-dir" || flag = "--data-base"

/-- Reads the arguments; `entry` is the path found so far. -/
def parseArgs (o : Options) (entry : Option String) :
    List String → Except OptionsError (Options × Option String)
  | [] => .ok (o, entry)
  | arg :: rest =>
    if isValued arg then
      match rest with
      | [] => .error (.missingValue arg)
      | value :: rest => do parseArgs (← parseValued o arg value) entry rest
    else
      match parseAssigned o arg with
      | some result => do parseArgs (← result) entry rest
      | none =>
        if arg.startsWith "-" || entry.isSome then .error (.unknownFlag arg)
        else parseArgs o (some arg) rest

/-- The options that arguments ask for. -/
def ofArgs (args : List String) : Except OptionsError Options := do
  let (o, entry) ← parseArgs {} none args
  match entry with
  | none => .error .missingEntry
  | some entry =>
    let o := { o with entry := ⟨entry⟩ }
    let _ ← o.entryModule
    return o

/-- Takes the tools that variables name; an empty value names none. -/
def applyEnv (o : Options) (lookup : String → Option String) : Options :=
  let named (var : String) (default : Path) : Path :=
    match lookup var with
    | some value => if value.isEmpty then default else ⟨value⟩
    | none => default
  { o with tools :=
      ⟨named assemblerVar o.tools.assembler, named mergerVar o.tools.merger⟩ }

end Options

end WasmBackend
