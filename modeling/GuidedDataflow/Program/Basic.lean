import Std.Data.TreeMap
import GuidedDataflow.Program.Statement

/-!
Programs: numbered statements, the control-flow edges between them in both directions, the
methods they stand in, and for every signature the statements that call it. Statements are
only ever appended and edges only ever added, so a number once given keeps its meaning.
-/

namespace GuidedDataflow

open Std

/-- What a method consists of, in the order of its statements. -/
structure Method where
  body : List StmtId
  identities : List (Formal × StmtId)
  returns : List StmtId
deriving Inhabited, Repr

namespace Method

def empty : Method := ⟨[], [], []⟩

/-- The first identity statement that binds the formal. -/
def identityOf? (m : Method) (formal : Formal) : Option StmtId :=
  (m.identities.find? fun entry => entry.1 = formal).map Prod.snd

/-- Enters a statement into the lists it belongs to. -/
def append (m : Method) (id : StmtId) (action : Action) : Method where
  body := m.body ++ [id]
  identities :=
    match action with
    | .identity _ formal => m.identities ++ [(formal, id)]
    | _ => m.identities
  returns :=
    match action with
    | .ret _ => m.returns ++ [id]
    | _ => m.returns

end Method

structure Program where
  statements : Array Statement
  preds : Array (List StmtId)
  succs : Array (List StmtId)
  methods : TreeMap Signature Method
  callSites : TreeMap Signature (List StmtId)

namespace Program

def empty : Program := ⟨#[], #[], #[], ∅, ∅⟩

instance : Inhabited Program := ⟨empty⟩

def size (p : Program) : Nat := p.statements.size

def isEmpty (p : Program) : Bool := p.statements.isEmpty

def statement? (p : Program) (id : StmtId) : Option Statement := p.statements[id.index]?

/-- Control-flow predecessors in the order their edges were added. -/
def predsOf (p : Program) (id : StmtId) : List StmtId := p.preds[id.index]?.getD []

def succsOf (p : Program) (id : StmtId) : List StmtId := p.succs[id.index]?.getD []

def predEdges (p : Program) (id : StmtId) : List Edge := (p.predsOf id).map (⟨·, id⟩)

def succEdges (p : Program) (id : StmtId) : List Edge := (p.succsOf id).map (⟨id, ·⟩)

def method? (p : Program) (signature : Signature) : Option Method := p.methods[signature]?

/-- The calls whose target is `callee`, in the order of their numbers. -/
def callersOf (p : Program) (callee : Signature) : List StmtId := p.callSites[callee]?.getD []

/-- All control-flow edges. -/
def edges (p : Program) : List Edge := p.statements.toList.flatMap fun s => p.succEdges s.id

/-- Makes the method known; one that is known already keeps its statements. -/
def declare (p : Program) (signature : Signature) : Program :=
  { p with methods := p.methods.insertIfNew signature Method.empty }

/-- The number of the next statement. -/
def nextId (p : Program) : StmtId := ⟨p.size⟩

/-- Adds a statement, as yet without edges, at the end of the method. -/
def append (p : Program) (signature : Signature) (action : Action) : Program :=
  let id := p.nextId
  { statements := p.statements.push ⟨id, signature, action⟩
    preds := p.preds.push []
    succs := p.succs.push []
    methods := p.methods.modify signature (·.append id action)
    callSites :=
      match action with
      | .invoke _ call => p.callSites.insert call.target (p.callersOf call.target ++ [id])
      | _ => p.callSites }

/-- Adds an edge between two statements; an edge that is there already stays single. -/
def link (p : Program) (source target : StmtId) : Program :=
  if target ∈ p.succsOf source then p
  else
    { p with
      succs := p.succs.modify source.index (· ++ [target])
      preds := p.preds.modify target.index (· ++ [source]) }

@[simp] theorem size_append (p : Program) (signature : Signature) (action : Action) :
    (p.append signature action).size = p.size + 1 := by
  simp [append, size]

@[simp] theorem size_link (p : Program) (source target : StmtId) :
    (p.link source target).size = p.size := by
  simp only [link, size]
  split <;> rfl

theorem statement?_append_next (p : Program) (signature : Signature) (action : Action) :
    (p.append signature action).statement? p.nextId = some ⟨p.nextId, signature, action⟩ := by
  simp [append, statement?, nextId, size]

end Program

end GuidedDataflow
