import GuidedDataflow.Query.Demand
import GuidedDataflow.Query.Table
import GuidedDataflow.Solver.Session

/-!
What an analysis needs of a solver. A backend opens sessions; a session answers demands one by
one and tells which allocation sites and forward tables it has come by. The reachability solver
is one backend; any other that answers the same questions can take its place.
-/

namespace GuidedDataflow

/-- A solver whose sessions have states `σ`. -/
structure Backend (σ : Type) where
  start : SolverOptions → Except SolveError σ
  solve : σ → Demand → Except SolveError (Table × σ)
  /-- The allocation sites of the latest solve of a backward query. -/
  allocationSites : σ → BackwardQuery → OrderedSet ForwardQuery
  forwardTable? : σ → ForwardQuery → Option Table
  /-- The forward queries that the session holds tables of. -/
  activeForward : σ → List ForwardQuery
  close : σ → σ
  /-- How many different allocation sites the sessions can report. -/
  siteBound : Nat

/-- The reachability solver over a program. A site leaves its statement by a control-flow edge
or by the edge of the query that found it. -/
def Backend.reachability (p : Program) : Backend Session where
  start := Session.start p
  solve := Session.solve
  allocationSites s q := .ofList ((s.allocationSites q).map Prod.fst)
  forwardTable? := Session.forwardTable?
  activeForward := Session.activeForward
  close := Session.close
  siteBound := p.edges.length + 1

end GuidedDataflow
