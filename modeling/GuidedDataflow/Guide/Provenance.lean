import GuidedDataflow.Query.Basic

/-!
Provenance: which query spawned which, and at what cell. Queries are numbered as they are first
mentioned. A pair of queries has one edge, which keeps the place of its first recording and
the trigger of its latest.
-/

namespace GuidedDataflow

structure ProvenanceEdge where
  parent : Query
  child : Query
  trigger : Cell
deriving DecidableEq, Inhabited, Repr

namespace ProvenanceEdge

def joins (e : ProvenanceEdge) (parent child : Query) : Bool := e.parent = parent && e.child = child

end ProvenanceEdge

structure Provenance where
  queries : List Query
  edges : List ProvenanceEdge
deriving Inhabited, Repr

namespace Provenance

def empty : Provenance := ⟨[], []⟩

def contains (g : Provenance) (q : Query) : Bool := g.queries.contains q

def addQuery (g : Provenance) (q : Query) : Provenance :=
  if g.contains q then g else { g with queries := g.queries ++ [q] }

/-- The number of a query. -/
def index? (g : Provenance) (q : Query) : Option Nat := g.queries.idxOf? q

/-- Records that `parent` spawned `child` at `trigger`. -/
def addEdge (g : Provenance) (parent child : Query) (trigger : Cell) : Provenance :=
  let g := (g.addQuery parent).addQuery child
  if g.edges.any (·.joins parent child) then
    { g with
      edges := g.edges.map fun e => if e.joins parent child then { e with trigger } else e }
  else { g with edges := g.edges ++ [⟨parent, child, trigger⟩] }

/-- The queries that `parent` spawned, in increasing order. -/
def children (g : Provenance) (parent : Query) : OrderedSet Query :=
  .ofList ((g.edges.filter (·.parent = parent)).map ProvenanceEdge.child)

def parents (g : Provenance) (child : Query) : OrderedSet Query :=
  .ofList ((g.edges.filter (·.child = child)).map ProvenanceEdge.parent)

def queryCount (g : Provenance) : Nat := g.queries.length

def edgeCount (g : Provenance) : Nat := g.edges.length

/-- An edge as text. -/
structure Entry where
  parent : String
  child : String
  trigger : String
deriving DecidableEq, Inhabited, Repr

/-- The edges as text, ordered by parent and child; edges that read alike keep their order. -/
def entries (g : Provenance) : List Entry :=
  let all := g.edges.map fun e => Entry.mk e.parent.text e.child.text e.trigger.text
  all.mergeSort fun a b =>
    (compareLex (compareOn Entry.parent) (compareOn Entry.child) a b).isLE

end Provenance

end GuidedDataflow
