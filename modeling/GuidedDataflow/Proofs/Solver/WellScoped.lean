import GuidedDataflow.Proofs.Flow.Placement
import GuidedDataflow.Proofs.Matching.Spawnable
import GuidedDataflow.Proofs.Solver.Narrowing
import GuidedDataflow.Proofs.Solver.Recorded

/-!
Recorded facts are well scoped. If every demand asks about an edge, a value and a trigger of one
method, then whatever has been solved each recorded fact is about one method as well: its edge
lies there, its value is a constant or a local of it, and its call string leads there within the
bound. So a return never goes to a call of another method. The demands that matching makes of
recorded cells are of this kind again.
-/

namespace GuidedDataflow

/-- The query's edge lies in the method, and so does the edge that a scope names. -/
structure Demand.Placed (d : Demand) (p : Program) (method : Signature) : Prop where
  edge : p.Inside d.query.edge method
  trigger : ∀ scope, d.scope = some scope → p.Inside scope.trigger.edge method

/-- A placed demand about a constant or a local of its method. -/
structure Demand.WellScoped (d : Demand) (p : Program) (method : Signature) : Prop
    extends d.Placed p method where
  owned : d.query.var.OwnedBy method

/-- A placed fact about a constant or a local of its method, under a string within the bound. -/
structure Fact.WellScoped (f : Fact) (p : Program) (bound : Nat) (method : Signature) : Prop
    extends f.Placed p method where
  depth_le : f.context.depth ≤ bound
  owned : f.value.OwnedBy method

namespace Demand

variable {d : Demand} {p : Program} {k : Nat} {method other : Signature}

namespace Placed

variable (h : d.Placed p method)
include h

theorem fact_topLevel : (Fact.ofCell d.query.cell .empty).Placed p method :=
  ⟨h.edge, .empty method⟩

/-- What leads to a demand's trigger leads to its query. -/
theorem fact_within {scope : Scope} (hscope : d.scope = some scope) {context : CallString}
    (hf : (Fact.ofCell scope.trigger context).Placed p other) :
    (Fact.ofCell d.query.cell context).Placed p method := by
  obtain rfl := (h.trigger scope hscope).eq hf.edge
  exact ⟨h.edge, hf.leads⟩

end Placed

theorem WellScoped.startsIn (h : d.WellScoped p method) :
    d.StartsIn fun f => ∃ method, f.WellScoped p k method := by
  constructor
  case topLevel =>
    intro _
    exact ⟨method, ⟨h.fact_topLevel, Nat.zero_le _, h.owned⟩⟩
  case within =>
    rintro scope hscope context ⟨other, hf⟩
    exact ⟨method, ⟨h.fact_within hscope hf.toPlaced, hf.depth_le, h.owned⟩⟩

end Demand

namespace Flow

variable {p : Program} {k : Nat}

theorem stable_wellScoped (hp : p.WellFormed) (hk : p.KeepsToMethods) (hu : p.UsesOwnLocals) :
    Stable p k fun f => ∃ method, f.WellScoped p k method := by
  rintro d f g ⟨method, hf⟩ hg
  obtain ⟨method', hplaced, hvalue⟩ := placed_of_step hp hk hf.toPlaced hg
  refine ⟨method', ⟨hplaced, depth_le_of_step hf.depth_le hg, ?_⟩⟩
  rcases hvalue with ⟨rfl, hvalue⟩ | ⟨s, hs, rfl, hmentioned⟩
  · rw [hvalue]
    exact hf.owned
  · exact hu s hs _ hmentioned

end Flow

namespace Program

variable {p : Program} {s : Statement} {q : Query}

/-- What is asked at a statement is asked in its method, about a value that it mentions. -/
theorem KeepsToMethods.inside_of_asks (hk : p.KeepsToMethods) (hp : p.WellFormed) {id : StmtId}
    (hs : p.statement? id = some s) (h : s.Asks p q) : p.Inside q.edge s.method := by
  obtain rfl := hp.id_eq _ _ hs
  cases h with
  | backward _ _ he => exact hk.inside_of_predEdges hp he hs
  | forward _ _ he => exact hk.inside_of_succEdges hp he hs

end Program

/-- A demand that a cell of one method spawns is well scoped in this method. -/
theorem Setup.wellScoped_of_mem_spawns {u : Setup} (hp : u.program.WellFormed)
    (hk : u.program.KeepsToMethods) (hu : u.program.UsesOwnLocals) {m : Matched}
    {x : SpawnSource × Spawn} (hx : x ∈ u.spawns m) {method : Signature}
    (htrigger : u.program.Inside x.2.trigger.edge method) :
    (Demand.within x.2.query x.2.trigger m.parent).WellScoped u.program method := by
  obtain ⟨-, id, s, hid, hs, hasks⟩ := asks_of_mem_spawns hp hx
  have hmethod : s.method = method := by
    rcases hid with rfl | rfl
    · exact htrigger.method_start hs
    · exact htrigger.method_target hs
  subst hmethod
  refine ⟨⟨hk.inside_of_asks hp hs hasks, fun scope hscope => ?_⟩, ?_⟩
  · cases hscope
    exact htrigger
  · exact hu s (Program.mem_of_statement? hs) _ hasks.var_mem_values

namespace Session

variable {parts : List (Signature × List Instruction)} {p : Program} {o : SolverOptions}
  {fresh : Session}

/-- The result of the second call is asked for, then where the parameter of the method goes under
the calls it has been reached under. -/
def nestedDemands : List Demand :=
  let parameter : Value := .localVar "a" ⟨"<M: Object relay(Object)>"⟩
  [.topLevel (.backward nestedResult),
    .within (.forward ⟨⟨⟨5⟩, ⟨6⟩⟩, .self parameter ⟨5⟩⟩) ⟨⟨⟨5⟩, ⟨6⟩⟩, parameter⟩
      (.backward nestedResult)]

/-- What the inner method returns to the second call of the outer one. -/
def nestedReturnFact : Fact := ⟨nestedReturn.edge, nestedReturn.value, nestedCalls⟩

/-- Who asks for the result of the outer method asks for its argument. -/
def nestedSetup : Setup :=
  let group := ((RuleGroup.ofSignature ⟨"<M: Object relay(Object)>"⟩).addOn
    ⟨.backward, .result⟩).addGo ⟨.backward, .positional 0⟩
  ⟨nestedProgram, .ofGroups [group], .standard⟩

theorem nestedResult_reached : (⟨nestedResult.edge, nestedResult.value, .empty⟩ : Fact) ∈
    (Query.backward nestedResult).facts nestedProgram 2 (.singleton .empty) :=
  Reaches.seed (by decide)

theorem nestedReturnFact_reached : nestedReturnFact ∈
    (Query.backward nestedResult).facts nestedProgram 2 (.singleton .empty) := by
  let relayReturn : Fact := ⟨⟨⟨6⟩, ⟨7⟩⟩, .localVar "b" ⟨"<M: Object relay(Object)>"⟩, ⟨[⟨3⟩]⟩⟩
  have hrelay : relayReturn ∈ Flow.backward nestedProgram 2
      ⟨nestedResult.edge, nestedResult.value, .empty⟩ := by decide
  have hecho : nestedReturnFact ∈ Flow.backward nestedProgram 2 relayReturn := by decide
  exact Reaches.step (Reaches.step nestedResult_reached hrelay) hecho

theorem records_nestedDemands {f : Fact}
    (hf : f ∈ (Query.backward nestedResult).facts nestedProgram 2 (.singleton .empty)) :
    ((nestedSession 2).callAll nestedDemands).Records f := by
  have hwf := Program.wellFormed_of_build build_nestedParts
  have hready : (nestedSession 2).Ready nestedProgram (nestedSession 2).options :=
    (ready_of_start rfl).1
  have hsolve := solveFrom_eq hwf hready.coherent rfl (.backward nestedResult)
    nestedResult_inside.knows (.singleton .empty)
  have hrecords : ((nestedSession 2).call (.topLevel (.backward nestedResult))).Records f := by
    rw [call, solve_topLevel rfl, hsolve]
    exact records_of_complete hwf hready.coherent hsolve
      (complete_nestedSession (by decide) hsolve) hf
  rw [nestedDemands, callAll_cons]
  exact hrecords.callAll (hready.call hwf _) hwf _

end Session

end GuidedDataflow
