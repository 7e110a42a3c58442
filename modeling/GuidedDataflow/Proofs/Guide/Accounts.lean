import GuidedDataflow.Proofs.Guide.Lineage

/-!
The accounts of a run balance: what was solved and what was skipped is what was accepted, each
spawned query was accepted or dropped, and each accepted one has its edge in the provenance.
Matching tables only touches the accounts of spawned queries; only a solve counts as solved.
-/

namespace GuidedDataflow

variable {σ : Type}

/-- The balance of a report's counters, marks and edges. -/
structure Report.Balanced (r : Report) (c : Config) : Prop where
  enqueued : r.statistics.totalSolved + r.statistics.queriesSkipped =
    r.statistics.queriesEnqueued + 1
  spawned : r.statistics.specSpawned + r.statistics.builtInSpawned =
    r.statistics.queriesEnqueued + r.statistics.duplicatesDropped
  solved : r.statistics.forwardSolved + r.statistics.backwardSolved =
    r.statistics.topLevelSolves + r.statistics.scopedSolves
  topLevel : r.statistics.topLevelSolves = 1
  complete : r.complete = true ↔ r.statistics.partialSolves = 0 ∧ r.statistics.queriesSkipped = 0
  capped : 0 < c.maxQueries → r.statistics.totalSolved ≤ c.maxQueries
  localOnly : c.propagation = .localOnly →
    r.statistics.builtInSpawned = 0 ∧ r.statistics.rescannedTables = 0
  edges : r.provenance.edgeCount = r.statistics.queriesEnqueued

namespace Statistics

variable (s : Statistics) (d : Direction) (inScope complete : Bool)

theorem totalSolved_recordSolve :
    (s.recordSolve d inScope complete).totalSolved = s.totalSolved + 1 := by
  cases d <;> simp [recordSolve, totalSolved] <;> omega

theorem scopes_recordSolve : (s.recordSolve d inScope complete).topLevelSolves +
    (s.recordSolve d inScope complete).scopedSolves = s.topLevelSolves + s.scopedSolves + 1 := by
  cases inScope <;> simp [recordSolve] <;> omega

end Statistics

namespace Progress

/-- A spawned query raises one counter for its source and one for what becomes of it. -/
theorem statistics_enqueue (p : Progress) (parent : Query) (source : SpawnSource) (spawn : Spawn) :
    ∃ spec builtIn accepted dropped, spec + builtIn = 1 ∧ accepted + dropped = 1 ∧
      (source = .specification → builtIn = 0) ∧
      (accepted = 1 ↔ p.agenda.accepts (.within spawn.query spawn.trigger parent) = true) ∧
      (p.enqueue parent source spawn).statistics = { p.statistics with
        specSpawned := p.statistics.specSpawned + spec
        builtInSpawned := p.statistics.builtInSpawned + builtIn
        queriesEnqueued := p.statistics.queriesEnqueued + accepted
        duplicatesDropped := p.statistics.duplicatesDropped + dropped } := by
  obtain ⟨spec, builtIn, hone, hspec, hcount⟩ : ∃ spec builtIn, spec + builtIn = 1 ∧
      (source = .specification → builtIn = 0) ∧ countSpawn p.statistics source = { p.statistics with
        specSpawned := p.statistics.specSpawned + spec
        builtInSpawned := p.statistics.builtInSpawned + builtIn } := by
    cases source with
    | specification => exact ⟨1, 0, rfl, fun _ => rfl, rfl⟩
    | builtIn => exact ⟨0, 1, rfl, fun h => SpawnSource.noConfusion h, rfl⟩
  cases haccepts : p.agenda.accepts (.within spawn.query spawn.trigger parent) with
  | true =>
    refine ⟨spec, builtIn, 1, 0, hone, rfl, hspec, iff_of_true rfl rfl, ?_⟩
    simp only [enqueue, haccepts, if_true, hcount]
    rfl
  | false =>
    have hnot : (0 = 1) ↔ (false = true) := iff_of_false Nat.zero_ne_one Bool.false_ne_true
    refine ⟨spec, builtIn, 0, 1, hone, rfl, hspec, hnot, ?_⟩
    simp only [enqueue, haccepts, Bool.false_eq_true, if_false, hcount]
    rfl

/-- What the counters say between the solves of a run that has made the listed ones. -/
structure Accounts (p : Progress) (c : Config) (initial : Query) (solved : List (Solved σ)) :
    Prop where
  lineage : p.Lineage c.visitedPolicy initial (solved.map Solved.demand)
  total : p.statistics.totalSolved = solved.length
  edges : p.provenance.edges.length = p.statistics.queriesEnqueued
  spawned : p.statistics.specSpawned + p.statistics.builtInSpawned =
    p.statistics.queriesEnqueued + p.statistics.duplicatesDropped
  scopes : p.statistics.totalSolved = p.statistics.topLevelSolves + p.statistics.scopedSolves
  topLevel : p.statistics.topLevelSolves = (solved.map Solved.demand).countP Demand.isTopLevel
  complete : p.complete = true ↔ p.statistics.partialSolves = 0
  skipped : p.statistics.queriesSkipped = 0
  capped : 0 < c.maxQueries → p.statistics.totalSolved ≤ c.maxQueries
  localOnly : c.propagation = .localOnly →
    p.statistics.builtInSpawned = 0 ∧ p.statistics.rescannedTables = 0

namespace Accounts

variable {p : Progress} {u : Setup} {c : Config} {initial : Query} {solved : List (Solved σ)}

theorem start (c : Config) (initial : Query) :
    (Progress.start c.visitedPolicy initial).Accounts c initial ([] : List (Solved σ)) where
  lineage := .start ..
  total := rfl
  edges := rfl
  spawned := rfl
  scopes := rfl
  topLevel := rfl
  complete := ⟨fun _ => rfl, fun _ => rfl⟩
  skipped := rfl
  capped := fun _ => Nat.zero_le _
  localOnly := fun _ => ⟨rfl, rfl⟩

theorem enqueue (h : p.Accounts c initial solved) (parent : Query) (source : SpawnSource)
    (spawn : Spawn) (hsource : source = .builtIn → c.propagation ≠ .localOnly) :
    (p.enqueue parent source spawn).Accounts c initial solved := by
  obtain ⟨spec, builtIn, accepted, dropped, hone, hfate, hspec, haccepted, hstatistics⟩ :=
    p.statistics_enqueue parent source spawn
  have hedges : (p.enqueue parent source spawn).provenance.edges.length =
      p.provenance.edges.length + accepted := by
    cases haccepts : p.agenda.accepts (.within spawn.query spawn.trigger parent) with
    | true =>
      rw [h.lineage.provenance_enqueue source haccepts, List.length_append, haccepted.2 haccepts]
      rfl
    | false =>
      have hnone : accepted = 0 := by
        rw [haccepts] at haccepted
        have hne : accepted ≠ 1 := fun h => Bool.false_ne_true (haccepted.1 h)
        omega
      simp only [Progress.enqueue, haccepts, hnone, Bool.false_eq_true, if_false, Nat.add_zero]
  refine ⟨h.lineage.enqueue parent source spawn, ?_, ?_, ?_, ?_, ?_, ?_, ?_, ?_, ?_⟩
  all_goals rw [hstatistics]
  · exact h.total
  · rw [hedges, h.edges]
  · have hspawned := h.spawned
    simp only
    omega
  · exact h.scopes
  · exact h.topLevel
  · rw [p.complete_enqueue]
    exact h.complete
  · exact h.skipped
  · exact h.capped
  · intro hpolicy
    obtain ⟨hnone, hrescanned⟩ := h.localOnly hpolicy
    refine ⟨?_, hrescanned⟩
    cases source with
    | specification => exact (congrArg₂ _ hnone (hspec rfl))
    | builtIn => exact absurd hpolicy (hsource rfl)

/-- A solve that the cap allows raises the counts of solves. -/
theorem collected (h : p.Accounts u.config initial solved) {d : Demand} {rest : List Demand}
    (hqueue : p.agenda.queue = d :: rest) (hcap : p.capReached u.config = false) (b : Backend σ)
    (s : σ) (t : Table) :
    ((p.popped rest).collected u b s d t).Accounts u.config initial (solved ++ [⟨d, t, s⟩]) := by
  have htotal : ((p.popped rest).collected u b s d t).statistics.totalSolved =
      p.statistics.totalSolved + 1 :=
    p.statistics.totalSolved_recordSolve d.query.direction (!d.isTopLevel) t.complete
  have hscopes : ((p.popped rest).collected u b s d t).statistics.topLevelSolves +
      ((p.popped rest).collected u b s d t).statistics.scopedSolves =
        p.statistics.topLevelSolves + p.statistics.scopedSolves + 1 :=
    p.statistics.scopes_recordSolve d.query.direction (!d.isTopLevel) t.complete
  have hsolved : (solved ++ [⟨d, t, s⟩] : List (Solved σ)).map Solved.demand =
      solved.map Solved.demand ++ [d] := by
    rw [List.map_append, List.map_singleton]
  refine ⟨?_, ?_, h.edges, h.spawned, ?_, ?_, ?_, h.skipped, fun hmax => ?_, fun hpolicy => ?_⟩
  · rw [hsolved]
    exact h.lineage.collected hqueue u b s t
  · rw [htotal, h.total, List.length_append, List.length_singleton]
  · rw [htotal, hscopes, h.scopes]
  · rw [hsolved, List.countP_append, ← h.topLevel]
    show p.statistics.topLevelSolves + (if !d.isTopLevel then 0 else 1) = _
    cases htop : d.isTopLevel <;> simp [htop]
  · show (p.complete && t.complete) = true ↔
      p.statistics.partialSolves + (if t.complete then 0 else 1) = 0
    rw [Bool.and_eq_true, h.complete]
    cases t.complete <;> simp
  · have hroom : ¬ u.config.maxQueries ≤ p.statistics.totalSolved := by
      simpa [capReached, hmax] using hcap
    rw [htotal]
    omega
  · obtain ⟨hnone, hrescanned⟩ := h.localOnly hpolicy
    refine ⟨hnone, ?_⟩
    show p.statistics.rescannedTables + (u.rescanned b s d.query).length = 0
    have hquiet : u.rescanned b s d.query = [] := by
      cases hq : d.query with
      | forward f => rfl
      | backward q => simp only [Setup.rescanned, hpolicy]
    rw [hrescanned, hquiet]
    rfl

theorem afterSolve (h : p.Accounts u.config initial solved) {d : Demand} {rest : List Demand}
    (hqueue : p.agenda.queue = d :: rest) (hcap : p.capReached u.config = false) (b : Backend σ)
    (s : σ) (t : Table) :
    ((p.popped rest).afterSolve u b s d t).Accounts u.config initial (solved ++ [⟨d, t, s⟩]) := by
  refine afterSolve_induction
    (motive := fun q => q.Accounts u.config initial (solved ++ [⟨d, t, s⟩]))
    (h.collected hqueue hcap b s t) fun _ m x _ hx hq => hq.enqueue m.parent x.1 x.2 ?_
  intro hbuiltIn hpolicy
  -- the local policy has no constructor rules
  have hspec := Setup.specification_of_idle (u := u) (m := m)
    (fun rule hrule => by rw [hpolicy] at hrule; cases hrule) x hx
  rw [hbuiltIn] at hspec
  cases hspec

/-- Of the accepted demands the first is solved first, and all others have a scope. -/
theorem topLevel_eq_one (h : p.Accounts c initial solved)
    (hsome : 0 < p.statistics.totalSolved) : p.statistics.topLevelSolves = 1 := by
  have hscoped : (p.provenance.edges.map ProvenanceEdge.demand).countP Demand.isTopLevel = 0 := by
    rw [List.countP_eq_zero]
    intro d hd
    obtain ⟨e, -, rfl⟩ := List.mem_map.1 hd
    exact Bool.false_ne_true
  have hcount := congrArg (List.countP Demand.isTopLevel) h.lineage.accepted
  rw [List.countP_append, ← h.topLevel, List.countP_cons_of_pos rfl, hscoped] at hcount
  have hpos : 0 < p.statistics.topLevelSolves := by
    cases hsolved : solved with
    | nil =>
      rw [h.total, hsolved] at hsome
      cases hsome
    | cons first later =>
      have haccepted := h.lineage.accepted
      rw [hsolved] at haccepted
      have hfirst : first.demand = .topLevel initial := (List.cons.inj haccepted).1
      rw [h.topLevel, hsolved, List.map_cons, hfirst, List.countP_cons_of_pos rfl]
      exact Nat.succ_pos _
  omega

/-- A run ends with a balanced report. -/
theorem balanced (h : p.Accounts c initial solved) {report : Report} (hends : p.Ends c report) :
    report.Balanced c := by
  have hlength := congrArg List.length h.lineage.accepted
  simp only [List.length_append, List.length_map, List.length_cons, h.edges, ← h.total] at hlength
  rcases hends with ⟨hqueue, rfl⟩ | ⟨hwaits, hcap, rfl⟩
  · rw [hqueue, List.length_nil] at hlength
    exact {
      enqueued := (congrArg _ h.skipped).trans hlength
      spawned := h.spawned
      solved := h.scopes
      topLevel := h.topLevel_eq_one (by omega)
      complete := h.complete.trans (and_iff_left h.skipped).symm
      capped := h.capped
      localOnly := h.localOnly
      edges := h.edges }
  · have hreached : 0 < c.maxQueries ∧ c.maxQueries ≤ p.statistics.totalSolved := by
      simpa [capReached] using hcap
    have hsome : p.agenda.queue.length ≠ 0 := mt List.length_eq_zero_iff.1 hwaits
    exact {
      enqueued := hlength
      spawned := h.spawned
      solved := h.scopes
      topLevel := h.topLevel_eq_one (by omega)
      complete := ⟨nofun, fun hnone => absurd hnone.2 hsome⟩
      capped := h.capped
      localOnly := h.localOnly
      edges := h.edges }

end Accounts

end Progress

namespace Setup

/-- A run that ends with a report has balanced accounts, whatever backend it is over. -/
theorem report_balanced (u : Setup) (b : Backend σ) (initial : Query) {report : Report}
    (h : (u.run b initial).result = .ok report) : report.Balanced u.config := by
  obtain ⟨s, calls, htrace⟩ := trace_of_report h
  obtain ⟨s', p, haccounts, hends⟩ := htrace.invariant
    (motive := fun solved _ p => p.Accounts u.config initial solved)
    (fun done s p d rest t s' queue cap _ hp => hp.afterSolve queue cap b s' t)
    (.start u.config initial) h
  exact haccounts.balanced hends

/-- The exchange with room for three solves. -/
def cappedExchange : Setup :=
  let u := exchangeSetup .localOnly .queryInScope
  { u with config := { u.config with maxQueries := 3 } }

/-- The cap leaves two of the five accepted queries unsolved. -/
theorem report_balanced_capped :
    ∃ report, (cappedExchange.analyze (.backward Session.relayResult)).result = .ok report ∧
      report.statistics = ⟨1, 2, 1, 2, 0, 4, 2, 6, 0, 0, 2, 2⟩ ∧
      report.Balanced cappedExchange.config := by
  have hend : ((cappedExchange.analyze (.backward Session.relayResult)).result.toOption.map
      Report.statistics) = some ⟨1, 2, 1, 2, 0, 4, 2, 6, 0, 0, 2, 2⟩ := by decide +kernel
  obtain ⟨report, hreport, hstatistics⟩ := Option.map_eq_some_iff.1 hend
  have hrun := eq_ok_of_toOption hreport
  exact ⟨report, hrun, hstatistics,
    report_balanced cappedExchange (.reachability cappedExchange.program) _ hrun⟩

end Setup

end GuidedDataflow
