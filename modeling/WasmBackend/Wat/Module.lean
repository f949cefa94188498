import WasmBackend.Data.Image
import WasmBackend.Text.Hex
import WasmBackend.Wat.Writer

/-!
# Modules of the target

A module as data, and its text. The parts are printed in a fixed order: the memory, the function
types, the imports, the globals, the constant data, the functions.

Names are printed as they are. Function types are named after the calling convention they stand for.
-/

namespace WasmBackend.Wat

/-- The memory that every module imports. -/
structure MemoryImport where
  source : String := "env"
  field : String := "memory"
  pages : Nat := 1
  deriving DecidableEq, Repr, Inhabited

/-- A function type, known by its encoded signature. -/
structure FuncType where
  encoded : String
  params : List ValType
  result : Option ValType
  deriving DecidableEq, Repr

inductive ImportItem where
  | func (encoded : String)
  | global (ty : ValType) (mutable : Bool)
  deriving DecidableEq, Repr

structure Import where
  source : String
  field : String
  name : String
  item : ImportItem
  deriving DecidableEq, Repr

structure Global where
  name : String
  exported : Bool
  ty : ValType
  mutable : Bool
  init : Instr
  deriving DecidableEq

structure Func where
  name : String
  exported : Bool
  encoded : String
  params : List (String × ValType)
  result : Option ValType
  locals : List (String × ValType)
  body : Body
  deriving DecidableEq

structure Module where
  memory : MemoryImport
  types : List FuncType
  imports : List Import
  globals : List Global
  data : List DataBlock
  funcs : List Func
  deriving DecidableEq

/-! ## Text -/

def MemoryImport.text (m : MemoryImport) : String :=
  "(import \"" ++ m.source ++ "\" \"" ++ m.field ++ "\" (memory " ++ toString m.pages ++ "))"

/-- The reference to a function type. -/
def typeName (encoded : String) : String := "$" ++ encoded ++ "_type"

def resultText : Option ValType → String
  | some t => " (result " ++ t.text ++ ")"
  | none => ""

def FuncType.text (t : FuncType) : String :=
  let params :=
    if t.params.isEmpty then ""
    else " (param " ++ " ".intercalate (t.params.map ValType.text) ++ ")"
  "(type " ++ typeName t.encoded ++ " (func" ++ params ++ resultText t.result ++ "))"

def globalType (ty : ValType) (mutable : Bool) : String :=
  if mutable then "(mut " ++ ty.text ++ ")" else ty.text

def Import.text (i : Import) : String :=
  let item :=
    match i.item with
    | .func encoded => "(func $" ++ i.name ++ " (type " ++ typeName encoded ++ "))"
    | .global ty mutable => "(global $" ++ i.name ++ " " ++ globalType ty mutable ++ ")"
  "(import \"" ++ i.source ++ "\" \"" ++ i.field ++ "\" " ++ item ++ ")"

def exportText (name : String) (exported : Bool) : String :=
  if exported then " (export \"" ++ name ++ "\")" else ""

def Global.text (g : Global) : String :=
  "(global $" ++ g.name ++ exportText g.name g.exported ++ " " ++ globalType g.ty g.mutable ++
    " (" ++ g.init.text ++ "))"

/-- Every byte is written as an escape. -/
def dataText (b : DataBlock) : String :=
  "(data (offset (i32.const " ++ toString b.address ++ ")) \"" ++
    String.ofList (b.bytes.flatMap fun byte => '\\' :: Text.hexByte byte) ++ "\")"

def paramText (p : String × ValType) : String := " (param $" ++ p.1 ++ " " ++ p.2.text ++ ")"

def localText (l : String × ValType) : String := "(local $" ++ l.1 ++ " " ++ l.2.text ++ ")"

def Func.headerText (f : Func) : String :=
  "(func $" ++ f.name ++ exportText f.name f.exported ++ " (type " ++ typeName f.encoded ++ ")" ++
    "".intercalate (f.params.map paramText) ++ resultText f.result

/-- Writes a function at the writer's level. -/
def Func.write (w : Writer) (f : Func) : Writer :=
  let w := (w.line f.headerText).indent
  let w := (f.locals.map localText).foldl Writer.line w
  ((w.lines f.body.lines).dedent).line ")"

def Module.text (m : Module) : String :=
  let w := (({} : Writer).line "(module").indent
  let header := m.memory.text :: m.types.map FuncType.text ++ m.imports.map Import.text ++
    m.globals.map Global.text ++ m.data.map dataText
  let w := header.foldl Writer.line w
  let w := m.funcs.foldl Func.write w
  (w.dedent.line ")").output

end WasmBackend.Wat
