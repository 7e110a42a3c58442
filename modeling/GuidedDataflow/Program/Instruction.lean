import GuidedDataflow.Program.Basic

/-!
Writing programs down. A method's statements are emitted one after another; each follows
the one before it unless that one returns or fall-through was switched off for this step.
A method may be continued later, after statements of other methods. Extra edges may join
statements that exist already, and nothing else.
-/

namespace GuidedDataflow

inductive Instruction where
  /-- Binds a local to the receiver. -/
  | this (name : String)
  /-- Binds a local to the next parameter. -/
  | parameter (name : String)
  | assign (target source : Value)
  | invoke (result : Option Value) (call : Call)
  | ret (value : Option Value)
  | nop
  /-- Adds an edge between two statements. -/
  | edge (source target : StmtId)
  /-- Keeps the next statement from following the last one. -/
  | noFallthrough
deriving DecidableEq, Inhabited, Repr

/-- An edge was asked for whose ends do not both exist. -/
inductive BuildError where
  | danglingEdge (source target : StmtId)
deriving DecidableEq, Inhabited, Repr

/-- Where writing stands inside a method. -/
structure Cursor where
  method : Signature
  last : Option StmtId
  fallsThrough : Bool
  nextParameter : Nat
deriving Inhabited, Repr

namespace Cursor

/-- Stands behind the method's last statement, with parameters counted from zero. -/
def atEnd (p : Program) (signature : Signature) : Cursor where
  method := signature
  last := (p.method? signature).bind (·.body.getLast?)
  fallsThrough := true
  nextParameter := 0

def localNamed (c : Cursor) (name : String) : Value := .localVar name c.method

end Cursor

namespace Program

/-- Appends a statement at the cursor and joins it to the one before it where control
falls through. -/
def emit (p : Program) (c : Cursor) (action : Action) : Program × Cursor :=
  let id := p.nextId
  let appended := p.append c.method action
  let joined :=
    match c.last with
    | none => appended
    | some prev =>
      if c.fallsThrough && !(appended.statement? prev).any Statement.isReturn then
        appended.link prev id
      else appended
  (joined, { c with last := some id, fallsThrough := true })

def execute (p : Program) (c : Cursor) : Instruction → Except BuildError (Program × Cursor)
  | .this name => .ok (p.emit c (.identity (c.localNamed name) .this))
  | .parameter name =>
    let next := { c with nextParameter := c.nextParameter + 1 }
    .ok (p.emit next (.identity (c.localNamed name) (.parameter c.nextParameter)))
  | .assign target source => .ok (p.emit c (.assign target source))
  | .invoke result call => .ok (p.emit c (.invoke result call))
  | .ret value => .ok (p.emit c (.ret value))
  | .nop => .ok (p.emit c .nop)
  | .edge source target =>
    if source.index < p.size ∧ target.index < p.size then .ok (p.link source target, c)
    else .error (.danglingEdge source target)
  | .noFallthrough => .ok (p, { c with fallsThrough := false })

def executeAll (p : Program) (c : Cursor) : List Instruction → Except BuildError (Program × Cursor)
  | [] => .ok (p, c)
  | i :: is =>
    match p.execute c i with
    | .ok (p, c) => p.executeAll c is
    | .error e => .error e

/-- Starts or continues a method. -/
def extend (p : Program) (signature : Signature) (body : List Instruction) :
    Except BuildError Program :=
  let declared := p.declare signature
  (declared.executeAll (Cursor.atEnd declared signature) body).map Prod.fst

/-- The program that the listed method parts write, one after another. -/
def build (parts : List (Signature × List Instruction)) : Except BuildError Program :=
  parts.foldlM (fun p (signature, body) => p.extend signature body) empty

end Program

end GuidedDataflow
