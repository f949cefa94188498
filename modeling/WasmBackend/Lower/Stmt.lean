import WasmBackend.Lower.Expr
import WasmBackend.Lower.Flow
import WasmBackend.Lower.Locals

/-!
# Lowering statements

A statement becomes a `Body`. Lowering carries the frame (locals become visible, loops are entered
and left) and the supply of loop labels; both are kept when it fails.

A failure also says which lines had been written by then: code is written in units, each complete
before the next is begun, and whoever watches the output sees the units before the failing one.
`afterWriting` accounts for them.

Conditionals whose arms both return are given the function's result as their type. The end of such
an arm, and of the conditional itself, is closed with `unreachable` where control cannot be seen to
stay away from it.
-/

namespace WasmBackend

/-- Why lowering stopped, and the lines written before. -/
structure Interrupted where
  error : CompileError
  written : List Line := []
  deriving DecidableEq

structure LowerState where
  frame : Frame
  labels : LabelSupply
  deriving DecidableEq

abbrev LowerM := EStateM Interrupted LowerState

namespace LowerM

/-- A step that writes nothing. -/
def ofCompiled {α : Type} (x : Compiled α) : LowerM α := fun s =>
  match x with
  | .ok a => .ok a s
  | .error e => .error { error := e } s

/-- A step taken after some lines were written. They are put together only if the step fails. -/
def afterWriting {α : Type} (written : Unit → List Line) (x : LowerM α) : LowerM α := fun s =>
  match x s with
  | .ok a s => .ok a s
  | .error e s => .error { e with written := written () ++ e.written } s

def modifyFrame (f : Frame → Frame) : LowerM Unit := modify fun s => { s with frame := f s.frame }

/-- Runs a step inside a loop. The loop is left again however the step ends. -/
def insideLoop {α : Type} (labels : LoopLabels) (x : LowerM α) : LowerM α := fun s =>
  match x { s with frame := s.frame.enterLoop labels } with
  | .ok a s => .ok a { s with frame := s.frame.exitLoop }
  | .error e s => .error e { s with frame := s.frame.exitLoop }

def freshLabels (draw : LabelSupply → LoopLabels × LabelSupply) : LowerM LoopLabels := fun s =>
  let (labels, supply) := draw s.labels
  .ok labels { s with labels := supply }

end LowerM

open LowerM (ofCompiled afterWriting)

namespace Lower

section

variable (info : ModuleInfo) (arena : Arena)

/-- The scope inside the current frame. -/
def frameScope : LowerM Scope := do return ⟨info, arena, some (← get).frame⟩

/-! ## Let -/

/-- The code that gives one member of a struct local its first value, in its local and in memory. -/
def initMember (sc : Scope) (name : String) (fields : List FieldInit)
    (entry : String × MemberLayout) : Compiled Code := do
  let (member, layout) := entry
  match layout.ty.storage? with
  | none => .error (.notImplemented ("member `" ++ member ++ "` of type `void`"))
  | some s =>
    let lane := layout.ty.lane
    let value ←
      match fields.find? (fun field => field.name == member) with
      | some field => asLane sc field.value lane
      | none => .ok (.one (.constant (.int 0) lane))
    return .one (.localGet name) ++ value ++
      .ofList [.localTee (Scope.flattenedName name member), .store s layout.offset]

/-- Initialises the members of a struct local in declaration order. -/
def initMembers (sc : Scope) (name : String) (fields : List FieldInit) :
    List (String × MemberLayout) → Compiled Code
  | [] => .ok .nil
  | entry :: rest => do
    let first ← initMember sc name fields entry
    return first ++ (← initMembers sc name fields rest)

/-- Every initialiser names a member. -/
def checkFields (layout : StructLayout) (fields : List FieldInit) : Compiled Unit :=
  fields.forM fun field => (layout.member field.name).map fun _ => ()

/-- The code of a `let`, and the locals that it makes visible. -/
def letCode (sc : Scope) (locals : Table String Variable) (decl : LetDecl) :
    Compiled (Code × List String) := do
  match ← sc.expr decl.init with
  | .struct structName fields =>
    let layout ← sc.info.structLayout structName
    checkFields layout fields
    let address ← lower sc decl.init
    let members ← initMembers sc decl.name fields layout.members.entries
    return (address ++ .one (.localSet decl.name) ++ members,
      decl.name :: layout.members.keys.map (Scope.flattenedName decl.name))
  | _ =>
    match locals.get? decl.name with
    | none => .error (.unknownVariable decl.name)
    | some v =>
      let value ← asLane sc decl.init v.ty.lane
      return (value ++ .one (.localSet decl.name), [decl.name])

def lowerLet (decl : LetDecl) : LowerM Body := do
  let sc ← frameScope info arena
  let (code, revealed) ← ofCompiled (letCode sc (← get).frame.locals decl)
  LowerM.modifyFrame fun f => revealed.foldl Frame.reveal f
  return .run code .done

/-! ## Jumps -/

def innermostLoop (statement : String) : LowerM LoopLabels := do
  match (← get).frame.innermostLoop? with
  | some labels => return labels
  | none => throw { error := .noEnclosingLoop statement }

/-- A `return`. A value that the function does not return is still computed. -/
def lowerReturn (value : Option ExprId) : LowerM Body := do
  let sc ← frameScope info arena
  match value with
  | none => return .ret .nil .done
  | some value =>
    let lane := (← get).frame.result.lane
    if lane = .void then return .ret (← ofCompiled (discard sc value)) .done
    else return .ret (← ofCompiled (asLane sc value lane)) .done

/-! ## Conditionals and loops -/

variable (sub : StmtId → Bool → LowerM Body)

/-- One arm of a conditional. -/
def lowerArm (arm : StmtId) (yields : Bool) : LowerM Body := do
  let body ← sub arm false
  if yields && !arena.neverFallsThrough arm then return body ++ .unreachable .done
  else return body

def lowerCond (id : StmtId) (cond : ExprId) (thenBranch : StmtId) (elseBranch : Option StmtId)
    (tail : Bool) : LowerM Body := do
  let result := (← get).frame.result.lane.valType?
  let yields := if arena.returns id then result else none
  let sc ← frameScope info arena
  let code ← ofCompiled (condition sc cond)
  -- What follows a conditional that yields is out of reach, except at the end of the function.
  let rest : Body := if yields.isSome && !tail then .unreachable .done else .done
  let opening := Body.condLines code yields
  let thenArm ← afterWriting (fun _ => opening) (lowerArm arena sub thenBranch yields.isSome)
  match elseBranch with
  | none => return .cond code yields thenArm rest
  | some elseBranch =>
    let elseArm ← afterWriting (fun _ => opening ++ thenArm.lines ++ [.otherwise])
      (lowerArm arena sub elseBranch yields.isSome)
    return .condElse code yields thenArm elseArm rest

/-- The loop that both kinds of loops become. The body of a `for` stands in a block of its own,
which `continue` leaves to run the update. -/
def lowerLoop (labels : LoopLabels) (cond : ExprId) (body : StmtId) (isFor : Bool)
    (update : Option ExprId) : LowerM Body := do
  let sc ← frameScope info arena
  let code ← ofCompiled (condition sc cond)
  let opening := [.block labels.exit, .loop labels.again] ++
    Body.branchUnlessLines code labels.exit ++ (if isFor then [.block labels.next] else [])
  let inner ← afterWriting (fun _ => opening) (LowerM.insideLoop labels (sub body false))
  let sc ← frameScope info arena
  let step : Body ← afterWriting
    (fun _ => opening ++ inner.lines ++ (if isFor then [.close] else []))
    (match update with
    | some update => do return .run (← ofCompiled (discard sc update)) .done
    | none => pure .done)
  let inner : Body := if isFor then .block labels.next inner .done else inner
  return .block labels.exit
    (.loop labels.again
      (.branchUnless code labels.exit (inner ++ step ++ .branch labels.again .done)) .done) .done

/-- A block: its statements in order, each after the lines of those before it. Only the last one can
be at the end of the function. -/
def lowerBlock (tail : Bool) : List StmtId → LowerM Body
  | [] => pure .done
  | [last] => sub last tail
  | first :: rest => do
    let body ← sub first false
    return body ++ (← afterWriting (fun _ => body.lines) (lowerBlock tail rest))

end

/-! ## Statements -/

def lowerStmtStep (info : ModuleInfo) (arena : Arena) (id : StmtId)
    (sub : StmtId → Bool → LowerM Body) (tail : Bool) : LowerM Body :=
  match arena.stmt? id with
  | none => throw { error := .danglingStmt id id }
  | some s =>
    match s with
    | .block stmts => lowerBlock sub tail stmts
    | .letting decl => lowerLet info arena decl
    | .cond cond thenBranch elseBranch =>
      lowerCond info arena sub id cond thenBranch elseBranch tail
    | .whileLoop cond body => do
      let labels ← LowerM.freshLabels LabelSupply.whileLoop
      lowerLoop info arena sub labels cond body false none
    | .forLoop init cond update body => do
      let start : Body ← match init with
        | some init => sub init false
        | none => pure .done
      afterWriting (fun _ => start.lines) do
        let labels ← LowerM.freshLabels LabelSupply.forLoop
        return start ++ (← lowerLoop info arena sub labels cond body true update)
    | .ret value => lowerReturn info arena value
    | .breakLoop => do return .branch (← innermostLoop "break").exit .done
    | .continueLoop => do return .branch (← innermostLoop "continue").next .done
    | .expr e => do
      let sc ← frameScope info arena
      return .run (← ofCompiled (discard sc e)) .done
    | s => throw { error := .notImplemented ("nested " ++ s.kindName ++ " declaration") }

/-- The code of a statement. `tail` tells whether the function ends right after it. -/
def lowerStmt (info : ModuleInfo) (arena : Arena) : StmtId → Bool → LowerM Body :=
  descend (fun parent child _ => throw { error := .danglingStmt parent child })
    (lowerStmtStep info arena)

/-- The code of a function body. -/
def lowerBody (info : ModuleInfo) (arena : Arena) (body : StmtId) : LowerM Body := do
  LowerM.modifyFrame Frame.hideLocals
  let code ← lowerStmt info arena body true
  if !(← get).frame.result.isVoid && !arena.neverFallsThrough body then
    return code ++ .unreachable .done
  else return code

/-- Runs a lowering and writes its code to the frame's writer: all of it, or what there was before
the failure. -/
def writing (x : LowerM Body) (s : LowerState) : Option CompileError × LowerState :=
  let write (s : LowerState) (ls : List Line) : LowerState :=
    { s with frame := { s.frame with writer := s.frame.writer.lines ls } }
  match x s with
  | .ok body s => (none, write s body.lines)
  | .error e s => (some e.error, write s e.written)

end Lower

end WasmBackend
