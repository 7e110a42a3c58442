import GuidedDataflow.Program.Basic
import GuidedDataflow.Query.Table
import GuidedDataflow.Rule.Specification

/-!
Matching tables against a specification. A cell triggers a rule group when the statement at
the start of its edge calls the group's signature and the cell's value is an operand that one
of the group's on-selectors names. Each go-selector whose operand the call has then spawns
queries on that operand: backward on every edge into the call, forward on every edge out.
-/

namespace GuidedDataflow

/-- The operand's value at a statement, if it is there. -/
def Statement.operand? (s : Statement) : Operand → Option Value
  | .base => s.call?.bind Call.receiver
  | .result => s.left?
  | .positional i => s.call?.bind (·.arg? i)

/-- Whether the value is the given operand of a call. -/
def Statement.hasOperand (s : Statement) (value : Value) (operand : Operand) : Bool :=
  s.isCall && s.operand? operand = some value

/-- A query together with the cell that asked for it. -/
structure Spawn where
  query : Query
  trigger : Cell
deriving DecidableEq, Inhabited, Repr

namespace Specification

/-- The groups that the value triggers at the statement. -/
def matching (spec : Specification) (s : Statement) (d : Direction) (value : Value) :
    List RuleGroup :=
  match s.call? with
  | none => []
  | some call =>
    (spec.groupsFor call.target).filter fun g =>
      (g.triggersIn d).any fun sel => s.hasOperand value sel.operand

end Specification

namespace RuleGroup

/-- The queries of one go-selector at a statement. -/
def queriesOf (p : Program) (s : Statement) (sel : Selector) : List Query :=
  match s.operand? sel.operand with
  | none => []
  | some value =>
    match sel.direction with
    | .backward => (p.predEdges s.id).map fun e => .backward ⟨e, value⟩
    | .forward => (p.succEdges s.id).map fun e => .forward ⟨e, .self value s.id⟩

/-- The queries that the group's go-selectors make at a statement. -/
def synthesize (g : RuleGroup) (p : Program) (s : Statement) : OrderedSet Query :=
  .ofList (g.go.toList.flatMap (queriesOf p s))

end RuleGroup

namespace Specification

/-- The queries that one cell spawns. -/
def spawnAt (spec : Specification) (p : Program) (d : Direction) (c : Cell) : List Spawn :=
  match p.statement? c.edge.start with
  | none => []
  | some s =>
    (spec.matching s d c.value).flatMap fun g =>
      (g.synthesize p s).toList.map (⟨·, c⟩)

/-- The queries that a table spawns, cell by cell in increasing order. -/
def spawn (spec : Specification) (p : Program) (d : Direction) (t : Table) : List Spawn :=
  t.cells.toList.flatMap (spec.spawnAt p d)

end Specification

end GuidedDataflow
