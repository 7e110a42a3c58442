import GuidedDataflow.Proofs.Guide.Ancestry

/-!
Which allocation sites a run reports, whatever backend it is over. After a solve the run considers
the query itself, if it is a forward one, and else the sites that the backend has found for it; it
keeps those that leave an assignment of a literal. A query that a rule spawns leaves a call. So
what is reported is the initial query or has been found as a site.
-/

namespace GuidedDataflow

variable {σ : Type}

/-- The statement assigns an integer or string constant. -/
inductive Program.AssignsLiteral (p : Program) (id : StmtId) : Prop
  | int {s : Statement} {target : Value} {n : Int} (statement : p.statement? id = some s)
      (action : s.action = .assign target (.int n)) : AssignsLiteral p id
  | string {s : Statement} {target : Value} {w : String} (statement : p.statement? id = some s)
      (action : s.action = .assign target (.string w)) : AssignsLiteral p id

theorem Program.AssignsLiteral.exists_assign {p : Program} {id : StmtId}
    (h : p.AssignsLiteral id) : ∃ s target source, p.statement? id = some s ∧
      s.action = .assign target source ∧ source.isLiteral = true := by
  cases h with
  | int statement action => exact ⟨_, _, _, statement, action, rfl⟩
  | string statement action => exact ⟨_, _, _, statement, action, rfl⟩

theorem SiteCollector.isLiteralSite_iff {p : Program} {f : ForwardQuery} :
    isLiteralSite p f = true ↔ p.AssignsLiteral f.origin := by
  unfold isLiteralSite
  constructor
  · intro h
    obtain ⟨s, hs, hliteral⟩ := (Option.any_eq_true ..).1 h
    obtain ⟨source, hsource, hvalue⟩ := (Option.any_eq_true ..).1 hliteral
    unfold Statement.right? at hsource
    split at hsource
    · next target value ha =>
      obtain rfl := Option.some.inj hsource
      cases value with
      | int n => exact .int hs ha
      | string w => exact .string hs ha
      | localVar => cases hvalue
      | new => cases hvalue
      | null => cases hvalue
    · cases hsource
  · intro h
    obtain ⟨s, target, source, hs, ha, hliteral⟩ := h.exists_assign
    simp only [hs, Option.any_some, Statement.isLiteralAllocation, Statement.right?, ha, hliteral]

/-- What is asked at a statement leaves a call, so no assignment. -/
theorem Statement.Asks.not_assignsLiteral {p : Program} (hp : p.WellFormed) {id : StmtId}
    {s : Statement} (hs : p.statement? id = some s) {f : ForwardQuery}
    (h : s.Asks p (.forward f)) : ¬ p.AssignsLiteral f.origin := by
  intro hliteral
  obtain ⟨assign, target, source, hassign, hassigns, -⟩ := hliteral.exists_assign
  exact h.not_assign hp hs hassign _ _ hassigns

namespace Setup

variable {u : Setup} {b : Backend σ} {initial : Query} {report : Report}

/-- No rule spawns a forward query from where a literal is assigned. -/
theorem Yields.not_assignsLiteral (hp : u.program.WellFormed) {m : Matched} {x : Spawn}
    (h : u.Yields m x) {f : ForwardQuery} (hf : x.query = .forward f) :
    ¬ u.program.AssignsLiteral f.origin := by
  obtain ⟨id, s, hs, hasks⟩ := h.asks hp
  exact Statement.Asks.not_assignsLiteral hp hs (hf ▸ hasks)

namespace Trace

variable {fuel : Nat} {s : σ} {policy : VisitedPolicy} {solved : List (Solved σ)}
  {calls : List BackendCall} {result : Except RunError Report}

/-- The literal sites are reported among the forward queries that the solves have brought. -/
theorem mem_allocationSites (h : u.Trace b fuel s (.start policy initial) solved calls result)
    (hresult : result = .ok report) (f : ForwardQuery) : f ∈ report.allocationSites ↔
      u.program.AssignsLiteral f.origin ∧ ∃ sol ∈ solved, Brings b sol (.forward f) := by
  have hstart : ∀ f, f ∈ (Progress.start policy initial).collector.sites ↔
      SiteCollector.isLiteralSite u.program f = true ∧
        ∃ sol ∈ ([] : List (Solved σ)), Brings b sol (.forward f) := fun f =>
    ⟨fun h => (OrderedSet.not_mem_empty f h).elim, fun ⟨_, _, hnone, _⟩ => nomatch hnone⟩
  obtain ⟨_, p, hcollected, hends⟩ := h.invariant
    (motive := fun done _ p => ∀ f, f ∈ p.collector.sites ↔
      SiteCollector.isLiteralSite u.program f = true ∧ ∃ sol ∈ done, Brings b sol (.forward f))
    (fun done s p d rest t s' _ _ _ hdone => mem_sites_afterSolve hdone rest d t s')
    hstart hresult
  rw [← SiteCollector.isLiteralSite_iff]
  rcases hends with ⟨-, rfl⟩ | ⟨-, -, rfl⟩
  · exact hcollected f
  · exact hcollected f

/-- A solved forward query at whose origin a literal is assigned is the initial one. -/
theorem eq_initial_of_assignsLiteral (hp : u.program.WellFormed)
    (h : u.Trace b fuel s (.start policy initial) solved calls result) {sol : Solved σ}
    (hsol : sol ∈ solved) {f : ForwardQuery} (hf : sol.demand.query = .forward f)
    (hliteral : u.program.AssignsLiteral f.origin) : initial = .forward f := by
  obtain ⟨before, after, hsplit⟩ := List.append_of_mem hsol
  rcases h.mem_queue_or_offspring hsplit with hinitial | ⟨earlier, -, hspawned⟩
  · have hdemand : sol.demand = .topLevel initial := List.mem_singleton.1 hinitial
    rw [← hf, hdemand]
    rfl
  · obtain ⟨m, -, x, hx, hd⟩ := mem_offspring.1 hspawned
    rw [hd] at hf
    exact absurd hliteral (hx.not_assignsLiteral hp hf)

end Trace

/-- A run reports those forward queries whose origin assigns a literal, among the ones that it has
solved and those found as sites after a backward solve. None that a matched table spawns is
reported: a reported site is the initial query or has been found. -/
theorem allocationSites_iff_literal {parts : List (Signature × List Instruction)}
    (hp : Program.build parts = .ok u.program) (b : Backend σ) (initial : Query)
    (hrun : (u.run b initial).result = .ok report) :
    (∀ f, f ∈ report.allocationSites ↔ u.program.AssignsLiteral f.origin ∧
        ((∃ sol ∈ (u.run b initial).solved, sol.demand.query = .forward f) ∨
          ∃ sol ∈ (u.run b initial).solved, Finds b sol f)) ∧
      (∀ sol ∈ (u.run b initial).solved, ∀ m, u.Matches b sol m → ∀ x, u.Yields m x →
        ∀ f, x.query = .forward f → f ∉ report.allocationSites) ∧
      ∀ f ∈ report.allocationSites,
        initial = .forward f ∨ ∃ sol ∈ (u.run b initial).solved, Finds b sol f := by
  have hwf := Program.wellFormed_of_build hp
  obtain ⟨s, calls, htrace⟩ := trace_of_report hrun
  have hsites := htrace.mem_allocationSites hrun
  refine ⟨fun f => ?_, fun sol _ m _ x hx f hf hreported => ?_, fun f hreported => ?_⟩
  · simp only [hsites, brings_forward, and_or_left, exists_or]
  · exact hx.not_assignsLiteral hwf hf ((hsites f).1 hreported).1
  · obtain ⟨hliteral, sol, hsol, hbrings⟩ := (hsites f).1 hreported
    rcases brings_forward.1 hbrings with hf | hfinds
    · exact .inl (htrace.eq_initial_of_assignsLiteral hwf hsol hf hliteral)
    · exact .inr ⟨sol, hsol, hfinds⟩

/-- The site of the call's argument is reported. The query for the call's result is not, although it
has been solved. -/
theorem allocationSites_iff_literal_exchange :
    let u := exchangeSetup .localOnly .queryIdentity
    let result : ForwardQuery := ⟨Session.relayResult.edge, .self Session.relayResult.value ⟨1⟩⟩
    ∃ report, (u.analyze (.backward Session.relayResult)).result = .ok report ∧
      .forward result ∈ (u.analyze (.backward Session.relayResult)).solved.map
        (·.demand.query) ∧
      result ∉ report.allocationSites ∧ Session.relaySite ∈ report.allocationSites ∧
      ∃ sol ∈ (u.analyze (.backward Session.relayResult)).solved,
        Finds (.reachability u.program) sol Session.relaySite := by
  intro u result
  have hp : Program.build Session.relayParts = .ok u.program := rfl
  have hend : ((u.analyze (.backward Session.relayResult)).result.toOption.map fun report =>
      report.allocationSites.toList) = some [Session.relaySite] := by decide +kernel
  obtain ⟨report, hreport, hsites⟩ := Option.map_eq_some_iff.1 hend
  have hrun := eq_ok_of_toOption hreport
  obtain ⟨hiff, -, hfound⟩ := allocationSites_iff_literal hp (.reachability u.program) _ hrun
  have hsite : Session.relaySite ∈ report.allocationSites :=
    OrderedSet.mem_def.2 (hsites ▸ List.mem_singleton_self _)
  refine ⟨report, hrun, by decide +kernel, fun hresult => ?_, hsite, ?_⟩
  · cases ((hiff result).1 hresult).1 with
    | int statement action =>
      cases statement
      cases action
    | string statement action =>
      cases statement
      cases action
  · exact (hfound Session.relaySite hsite).resolve_left Query.noConfusion

end Setup

end GuidedDataflow
