import GuidedDataflow.Document.Json.Writer
import GuidedDataflow.Guide.Provenance
import GuidedDataflow.Guide.Statistics

/-!
Reports of an analysis, and how they read as a line of text and as JSON.
-/

namespace GuidedDataflow

structure Report where
  allocationSites : OrderedSet ForwardQuery
  statistics : Statistics
  provenance : Provenance
  /-- No solved query's own table was cut short, and no query was left unsolved. -/
  complete : Bool
deriving Inhabited

def Value.tree : Value → Tree
  | .localVar name method =>
    .record [("local", .record [("name", .text name), ("method", .text method.text)])]
  | .int value => .record [("int_constant", .int value)]
  | .string value => .record [("string_constant", .text value)]
  | .new type => .record [("new_expr", .record [("type_name", .text type)])]
  | .null => .text "null"

def Edge.tree (e : Edge) : Tree :=
  .record [("start", .nat e.start.index), ("target", .nat e.target.index)]

def Allocation.tree (a : Allocation) : Tree :=
  .record [("delegate", a.delegate.tree), ("alloc_stmt", .nat a.stmt.index),
    ("alloc_value", a.value.tree)]

def ForwardQuery.tree (q : ForwardQuery) : Tree :=
  .record [("edge", q.edge.tree), ("alloc", q.alloc.tree)]

def Provenance.Entry.tree (e : Provenance.Entry) : Tree :=
  .record [("parent", .text e.parent), ("child", .text e.child), ("trigger", .text e.trigger)]

def Statistics.tree (s : Statistics) : Tree :=
  .record (s.entries.map fun (name, count) => (name, .nat count))

namespace Report

def summary (r : Report) : String :=
  toString r.allocationSites.size ++ " allocation sites, " ++
    toString r.statistics.totalSolved ++ " queries solved (" ++
    toString r.statistics.forwardSolved ++ " forward, " ++
    toString r.statistics.backwardSolved ++ " backward), " ++
    toString r.statistics.duplicatesDropped ++ " duplicates dropped" ++
    (if r.complete then "" else " [incomplete]")

def tree (r : Report) : Tree :=
  .record [
    ("allocation_sites", .list (r.allocationSites.toList.map ForwardQuery.tree)),
    ("stats", r.statistics.tree),
    ("query_graph", .list (r.provenance.entries.map Provenance.Entry.tree)),
    ("complete", .bool r.complete)]

/-- The report as JSON spread over lines. -/
def toJson (r : Report) : String := Json.pretty r.tree

end Report

end GuidedDataflow
