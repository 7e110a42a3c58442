import GuidedDataflow.Proofs.Flow.Retrace
import GuidedDataflow.Proofs.Solver.WellScoped

/-!
The allocation sites that backward solves find. Each of them has been solved forward from the
call strings it was found under, and from there the backward run can be retraced: what is
created at the site flows to the query, whatever has been solved before and wherever the
backward solve was cut short.
-/

namespace GuidedDataflow

/-- The query's edge is one of the program, and the edge that a scope names lies in its method. -/
structure Demand.Traceable (d : Demand) (p : Program) : Prop where
  edge_mem : d.query.edge ∈ p.edges
  placed : ∃ method, d.Placed p method

/-- At top level every query on an edge of the program is traceable. -/
theorem Demand.traceable_topLevel {p : Program} (hp : p.WellFormed) (hk : p.KeepsToMethods)
    {q : Query} (h : q.edge ∈ p.edges) : (Demand.topLevel q).Traceable p := by
  obtain ⟨method, hinside⟩ := hk.exists_inside hp h
  exact ⟨h, method, ⟨hinside, nofun⟩⟩

theorem Demand.Traceable.startsIn {d : Demand} {p : Program} {k : Nat} (h : d.Traceable p) :
    d.StartsIn (·.Traceable p k) := by
  obtain ⟨hedge, method, hplaced⟩ := h
  constructor
  case topLevel => exact fun _ => ⟨hedge, ⟨method, hplaced.fact_topLevel⟩, Nat.zero_le _⟩
  case within =>
    rintro scope hscope context ⟨-, ⟨other, hf⟩, hdepth⟩
    exact ⟨hedge, ⟨method, hplaced.fact_within hscope hf⟩, hdepth⟩

namespace Session

/-- From a call string that a backward run found the site under, the site flows to the query. -/
theorem exists_fact_of_allocation {p : Program} {k : Nat} (hp : p.WellFormed)
    (hk : p.KeepsToMethods) (hret : p.StopsAtReturns) {b : BackwardQuery} {seeds : Seeds}
    (hseeds : ∀ context ∈ seeds, (Fact.ofCell (Query.backward b).cell context).Traceable p k)
    {f : Fact} (hf : f ∈ (Query.backward b).facts p k seeds) {site : ForwardQuery}
    (hsite : Flow.allocation? p f = some site) {contexts : Seeds}
    (hcontext : f.context ∈ contexts) :
    ∃ c, Fact.ofCell (Query.backward b).cell c ∈ (Query.forward site).facts p k contexts := by
  have htraceable := (Flow.stable_traceable hp hk).reached hseeds hf
  obtain ⟨-, -, -, -, -, rfl⟩ := Flow.allocation?_eq_some.1 hsite
  exact Flow.exists_forward_of_backward hp hk hret hseeds hf htraceable.depth_le (.refl _)
    (Reaches.seed (List.mem_map_of_mem hcontext))

variable {parts : List (Signature × List Instruction)} {p : Program} {o : SolverOptions}
  {fresh : Session}

/-- What the inner method returns, as it was reached from the result of the second call. -/
def nestedReturnDemand : Demand :=
  .within (.backward nestedReturn) (Query.backward nestedReturn).cell (.backward nestedResult)

end Session

end GuidedDataflow
