/-!
# Paths

A path is a text whose segments are separated by slashes. It is kept as it was written and shown
that way; only its parts are looked at without empty segments and dots. A leading slash makes it
absolute, and a leading dot counts as a part of its own.
-/

namespace WasmBackend

structure Path where
  text : String
  deriving DecidableEq, Repr, Inhabited

namespace Path

/-- The pieces between separators, empty ones included. -/
def splitSegments (cs : List Char) : List (List Char) :=
  match cs with
  | [] => [[]]
  | c :: rest =>
    if c = '/' then [] :: splitSegments rest
    else
      match splitSegments rest with
      | [] => [[c]]
      | first :: others => (c :: first) :: others

/-- Segments put together again. -/
def joinSegments : List (List Char) → List Char
  | [] => []
  | [s] => s
  | s :: rest => s ++ '/' :: joinSegments rest

def isAbsolute (p : Path) : Bool := p.text.startsWith "/"

/-- A segment that names no part of the path. -/
def isIdle (segment : List Char) : Bool := segment.isEmpty || segment == ['.']

/-- Drops idle segments at the end. -/
def dropIdle (segments : List (List Char)) : List (List Char) :=
  (segments.reverse.dropWhile isIdle).reverse

/-- The leading slash or dot, if there is one, and the segments after it. -/
def lead (p : Path) : List (List Char) × List (List Char) :=
  match splitSegments p.text.toList with
  | [] => ([], [])
  | first :: rest =>
    if p.isAbsolute || first == ['.'] then ([first], rest) else ([], first :: rest)

/-- A path from its lead and its segments. A lone lead is the root or the current directory. -/
def ofLead (lead segments : List (List Char)) : Path :=
  match lead, segments with
  | [[]], [] => ⟨"/"⟩
  | _, _ => ⟨String.ofList (joinSegments (lead ++ segments))⟩

/-- The path without its last part. The root has nothing before it, nor has an empty path. -/
def parent? (p : Path) : Option Path :=
  let (lead, segments) := p.lead
  match (dropIdle segments).dropLast, dropIdle segments with
  | _, [] => if lead == [['.']] then some ⟨""⟩ else none
  | before, _ => some (ofLead lead (dropIdle before))

/-- The last part, if it is a name. -/
def fileName? (p : Path) : Option String :=
  match (dropIdle p.lead.2).getLast? with
  | some name => if name == ['.', '.'] then none else some (String.ofList name)
  | none => none

/-- A name without its extension: what stands before its last dot, unless that is nothing. -/
def stem (name : List Char) : List Char :=
  let reversed := name.reverse
  match reversed.dropWhile (· != '.') with
  | [] => name
  | _ :: before => if before.isEmpty then name else before.reverse

/-- The path with another extension on its last part; unchanged if that is not a name. The old
extension is cut off first: where that leaves two dots at the end, there is no name to extend. -/
def withExtension (p : Path) (extension : String) : Path :=
  match p.fileName? with
  | none => p
  | some name =>
    let (lead, segments) := p.lead
    let named := dropIdle segments
    let kept := stem name.toList
    let last :=
      if kept == ['.'] && named == segments then ['.', '.'] else kept ++ '.' :: extension.toList
    ofLead lead (named.dropLast ++ [last])

/-- A path below another one. An absolute path stays itself. -/
def join (p q : Path) : Path :=
  if q.isAbsolute || p.text.isEmpty then q
  else if p.text.endsWith "/" then ⟨p.text ++ q.text⟩
  else ⟨p.text ++ "/" ++ q.text⟩

/-- The path and what lies above it, nearest first, as far as there are names. -/
def ancestors (fuel : Nat) (p : Path) : List Path :=
  match fuel with
  | 0 => []
  | fuel + 1 =>
    if p.text.isEmpty then []
    else
      match p.parent? with
      | some up => p :: ancestors fuel up
      | none => [p]

end Path

end WasmBackend
