import GuidedDataflow.Guide.Policy
import GuidedDataflow.Query.Demand

/-!
The agenda of an analysis: a queue of demands that accepts each key once. Under query identity
the key of a demand is its query; within scope it is the query with its parent. Taking a
demand off the queue does not make its key acceptable again.
-/

namespace GuidedDataflow

/-- What makes a demand the same as another. -/
structure DemandKey where
  query : Query
  parent : Option Query
deriving DecidableEq, Inhabited, Repr

def VisitedPolicy.key : VisitedPolicy → Demand → DemandKey
  | queryIdentity, d => ⟨d.query, none⟩
  | queryInScope, d => ⟨d.query, d.parent?⟩

structure Agenda where
  policy : VisitedPolicy
  queue : List Demand
  /-- The accepted keys, latest first. -/
  visited : List DemandKey
  dropped : Nat
deriving Inhabited, Repr

namespace Agenda

def empty (policy : VisitedPolicy) : Agenda := ⟨policy, [], [], 0⟩

/-- Whether pushing the demand would queue it. -/
def accepts (a : Agenda) (d : Demand) : Bool := !a.visited.contains (a.policy.key d)

def push (a : Agenda) (d : Demand) : Agenda :=
  if a.accepts d then
    { a with queue := a.queue ++ [d], visited := a.policy.key d :: a.visited }
  else { a with dropped := a.dropped + 1 }

def pop? (a : Agenda) : Option (Demand × Agenda) :=
  match a.queue with
  | [] => none
  | d :: rest => some (d, { a with queue := rest })

def size (a : Agenda) : Nat := a.queue.length

def isEmpty (a : Agenda) : Bool := a.queue.isEmpty

/-- The number of different keys pushed so far. -/
def visitedCount (a : Agenda) : Nat := a.visited.length

end Agenda

end GuidedDataflow
