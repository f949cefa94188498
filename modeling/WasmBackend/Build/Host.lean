import WasmBackend.Build.Path
import WasmBackend.Symbols.Table

/-!
# The outside world

What a build needs from the machine it runs on: reading and writing text files, making directories,
running programs. `Host` is the interface. It is met by a real file system, or by a `World` that is
just data: a tree of files and a list of installed programs, so that a whole build is a function.
-/

namespace WasmBackend

/-- Why an operation on files, or starting a program, did not work. -/
inductive FileError where
  | notFound
  | permissionDenied
  | alreadyExists
  | notADirectory
  | isADirectory
  | nameTooLong
  | nulInName
  | nulInCommand
  | notText
  | other (text : String)
  deriving DecidableEq, Repr

def FileError.message : FileError → String
  | .notFound => "No such file or directory (os error 2)"
  | .permissionDenied => "Permission denied (os error 13)"
  | .alreadyExists => "File exists (os error 17)"
  | .notADirectory => "Not a directory (os error 20)"
  | .isADirectory => "Is a directory (os error 21)"
  | .nameTooLong => "File name too long (os error 36)"
  | .nulInName => "file name contained an unexpected NUL byte"
  | .nulInCommand => "nul byte found in provided data"
  | .notText => "stream did not contain valid UTF-8"
  | .other text => text

/-- Is there a NUL character? Names and arguments end at the first one, so they hold none. -/
def hasNul (text : String) : Bool := text.toList.contains (Char.ofNat 0)

/-- A program with its arguments. -/
structure Command where
  program : Path
  args : List String
  deriving DecidableEq, Repr

/-- Can the command be handed over at all? -/
def Command.isPassable (c : Command) : Bool := !hasNul c.program.text && !c.args.any hasNul

/-- How a program ended. -/
structure ToolResult where
  code : Nat
  stderr : String := ""
  deriving DecidableEq, Repr

structure Host (m : Type → Type) where
  read : Path → m (Except FileError String)
  write : Path → String → m (Except FileError Unit)
  makeDir : Path → m (Except FileError Unit)
  isDir : Path → m Bool
  run : Command → m (Except FileError ToolResult)

namespace Host

variable {m : Type → Type} [Monad m]

/-- Makes the first directory of the list, which lies in the second, and so on. Only directories
that are missing are made. -/
def makeDirsIn (host : Host m) : List Path → m (Except FileError Unit)
  | [] => pure (.ok ())
  | p :: up => do
    match ← host.makeDir p with
    | .ok _ => return .ok ()
    | .error .notFound =>
      match ← host.makeDirsIn up with
      | .error e => return .error e
      | .ok _ =>
        match ← host.makeDir p with
        | .ok _ => return .ok ()
        | .error e => if ← host.isDir p then return .ok () else return .error e
    | .error e => if ← host.isDir p then return .ok () else return .error e

/-- Makes a directory and those it lies in. -/
def makeDirs (host : Host m) (p : Path) : m (Except FileError Unit) :=
  host.makeDirsIn (p.ancestors (p.text.length + 1))

end Host

/-! ## A world of data -/

/-- Files and directories, by their names from the root down. -/
structure FileTree where
  files : Table (List String) (List UInt8) := {}
  dirs : List (List String) := []
  deriving DecidableEq, Repr

/-- What a path leads to. -/
inductive Location where
  | file (names : List String)
  | dir (names : List String)
  | missing (names : List String)
  deriving DecidableEq, Repr

namespace FileTree

def isDir (t : FileTree) (names : List String) : Bool := names.isEmpty || t.dirs.contains names

def isFile (t : FileTree) (names : List String) : Bool := t.files.contains names

/-- What lies at these names. -/
def lookup (t : FileTree) (names : List String) : Location :=
  if t.isDir names then .dir names
  else if t.isFile names then .file names
  else .missing names

/-- The longest name, in bytes. -/
def maxNameLength : Nat := 255

/-- The longest path, in bytes. It is a limit on the text: segments that lead nowhere count too. -/
def maxPathLength : Nat := 4095

/-- Follows segments from a location. Names are looked up in directories only. -/
def follow (t : FileTree) : Location → List String → Except FileError Location
  | loc, [] => .ok loc
  | .file _, _ :: _ => .error .notADirectory
  | .missing _, _ :: _ => .error .notFound
  | .dir names, segment :: rest =>
    if segment.isEmpty || segment == "." then t.follow (.dir names) rest
    else if segment == ".." then t.follow (.dir names.dropLast) rest
    else if maxNameLength < segment.utf8ByteSize then .error .nameTooLong
    else t.follow (t.lookup (names ++ [segment])) rest

/-- What a path leads to from a working directory. Whether the text can be a path at all is decided
before anything is looked up. -/
def locate (t : FileTree) (home : List String) (p : Path) : Except FileError Location :=
  if hasNul p.text then .error .nulInName
  else if p.text.isEmpty then .error .notFound
  else if maxPathLength < p.text.utf8ByteSize then .error .nameTooLong
  else
    let segments := (Path.splitSegments p.text.toList).map String.ofList
    t.follow (.dir (if p.isAbsolute then [] else home)) segments

/-- Adds a file and the directories it lies in. -/
def addFile (t : FileTree) (names : List String) (bytes : List UInt8) : FileTree :=
  let above := (List.range names.length).map fun n => names.take n
  { files := t.files.set names bytes
    dirs := t.dirs ++ above.filter fun d => !t.isDir d }

end FileTree

/-- Files, a working directory, and the programs that can be found by name. -/
structure World where
  tree : FileTree
  home : List String
  programs : Table String ToolResult := {}
  deriving DecidableEq, Repr

namespace World

def read (w : World) (p : Path) : Except FileError String := do
  match ← w.tree.locate w.home p with
  | .dir _ => .error .isADirectory
  | .missing _ => .error .notFound
  | .file names =>
    let bytes := (w.tree.files.get? names).getD []
    match String.fromUTF8? (ByteArray.mk bytes.toArray) with
    | some text => .ok text
    | none => .error .notText

def write (w : World) (p : Path) (text : String) : Except FileError World := do
  match ← w.tree.locate w.home p with
  | .dir _ => .error .isADirectory
  | .file names | .missing names =>
    .ok { w with tree := { w.tree with files := w.tree.files.set names text.toUTF8.toList } }

def makeDir (w : World) (p : Path) : Except FileError World := do
  match ← w.tree.locate w.home p with
  | .missing names => .ok { w with tree := { w.tree with dirs := w.tree.dirs ++ [names] } }
  | _ => .error .alreadyExists

def isDir (w : World) (p : Path) : Bool :=
  match w.tree.locate w.home p with
  | .ok (.dir _) => true
  | _ => false

/-- Starts a program. One with a slash in its name is a file, and files here are not programs.
Others are searched for by name; a dot or two dots name directories wherever one searches. -/
def run (w : World) (c : Command) : Except FileError ToolResult :=
  if !c.isPassable then .error .nulInCommand
  else if c.program.text.contains '/' then do
    match ← w.tree.locate w.home c.program with
    | .missing _ => .error .notFound
    | _ => .error .permissionDenied
  else if FileTree.maxNameLength < c.program.text.utf8ByteSize then .error .nameTooLong
  else if c.program.text == "." || c.program.text == ".." then .error .permissionDenied
  else
    match w.programs.get? c.program.text with
    | some result => .ok result
    | none => .error .notFound

/-- Changes the world if an operation works. -/
def changing (f : World → Except FileError World) : StateM World (Except FileError Unit) := fun w =>
  match f w with
  | .ok w => (.ok (), w)
  | .error e => (.error e, w)

/-- A world as a host. -/
def host : Host (StateM World) where
  read := fun p w => (w.read p, w)
  write := fun p text => changing fun w => w.write p text
  makeDir := fun p => changing fun w => w.makeDir p
  isDir := fun p w => (w.isDir p, w)
  run := fun c w => (w.run c, w)

end World

end WasmBackend
