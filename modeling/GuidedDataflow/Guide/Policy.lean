import GuidedDataflow.Matching.ConstructorRule

/-!
Policies of an analysis: which forward tables are matched after a backward solve, and when two
demands count as the same.
-/

namespace GuidedDataflow

inductive Propagation where
  /-- The tables of the allocation sites that the backward solve found. -/
  | localOnly
  /-- Every active forward table, matched by constructor rules as well. -/
  | globalRescan (rules : List ConstructorRule)
deriving DecidableEq, Inhabited, Repr

namespace Propagation

def text : Propagation → String
  | localOnly => "local"
  | globalRescan _ => "global_rescan"

def constructorRules : Propagation → List ConstructorRule
  | localOnly => []
  | globalRescan rules => rules

end Propagation

inductive VisitedPolicy where
  /-- By their query. -/
  | queryIdentity
  /-- By their query and its parent. -/
  | queryInScope
deriving DecidableEq, Inhabited, Repr

namespace VisitedPolicy

def all : List VisitedPolicy := [queryIdentity, queryInScope]

/-- The name in configurations. -/
def text : VisitedPolicy → String
  | queryIdentity => "query_identity"
  | queryInScope => "query_in_scope"

/-- The name in descriptions. -/
def label : VisitedPolicy → String
  | queryIdentity => "QueryIdentity"
  | queryInScope => "QueryInScope"

end VisitedPolicy

end GuidedDataflow
