import GuidedDataflow.Query.Basic

/-!
Why a solver refuses. Each cause names what it is about; the wording is in one place.
-/

namespace GuidedDataflow

inductive SolveError where
  /-- A scoped query names a parent that was never solved in the session. -/
  | unknownParent (query parent : Query)
  /-- No solve of the parent reached the cell that is said to have triggered the query. -/
  | unknownTrigger (parent : Query) (trigger : Cell)
  /-- The query's edge names a statement that the program does not have. -/
  | unknownStatement (id : StmtId)
  | sessionClosed
  | internal (detail : String)
deriving DecidableEq, Inhabited, Repr

namespace SolveError

def message : SolveError → String
  | unknownParent query parent =>
    "Scoped solve of " ++ query.text ++ " requested under unknown parent " ++ parent.text
  | unknownTrigger parent trigger =>
    "Parent " ++ parent.text ++ " never reached triggering node " ++ trigger.text
  | unknownStatement id => "Unknown statement " ++ id.text
  | sessionClosed => "Solver session already closed"
  | internal detail => "Solver internal error: " ++ detail

end SolveError

end GuidedDataflow
