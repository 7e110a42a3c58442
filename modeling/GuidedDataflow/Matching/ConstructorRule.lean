import GuidedDataflow.Matching.Spawn

/-!
Constructor rules. When a value flows into a matching instance call as an argument, the
receiver becomes a new forward source behind the call. Unlike rule groups, a constructor rule
looks at the statement at the target of a cell's edge: the call about to run.
-/

namespace GuidedDataflow

structure ConstructorRule where
  declaringClass : String
  methodName : String
deriving DecidableEq, Inhabited, Repr

namespace ConstructorRule

/-- Strings built from characters. -/
def standard : ConstructorRule := ⟨"java.lang.String", "<init>"⟩

def applies (r : ConstructorRule) (call : Call) (value : Value) : Bool :=
  call.target.declaringClass? = some r.declaringClass &&
    call.target.methodName? = some r.methodName && call.args.contains value

/-- The forward queries on the receiver of the call that the cell flows into. -/
def queriesAt (r : ConstructorRule) (p : Program) (c : Cell) : OrderedSet Query :=
  let site := c.edge.target
  match (p.statement? site).bind Statement.call? with
  | none => .empty
  | some call =>
    if r.applies call c.value then
      match call.receiver with
      | none => .empty
      | some receiver =>
        .ofList ((p.succEdges site).map fun e => .forward ⟨e, .self receiver site⟩)
    else .empty

def spawn (r : ConstructorRule) (p : Program) (t : Table) : List Spawn :=
  t.cells.toList.flatMap fun c => (r.queriesAt p c).toList.map (⟨·, c⟩)

end ConstructorRule

end GuidedDataflow
