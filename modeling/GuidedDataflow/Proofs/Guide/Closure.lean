import GuidedDataflow.Proofs.Guide.Scoping

/-!
What a run to the end has solved. Its solves are the first demands with each key among the
initial one and those that the solves themselves give rise to, in the order in which they
arise. So whatever a matched table spawns has been solved, nothing else has been, and no key
twice.
-/

namespace GuidedDataflow

variable {σ : Type}

theorem eq_ok_of_toOption {ε α : Type} {x : Except ε α} {a : α} (h : x.toOption = some a) :
    x = .ok a := by
  cases x with
  | error e => cases h
  | ok b => exact congrArg Except.ok (Option.some.inj h)

namespace Setup

/-- After the solve, the table is matched on behalf of its parent. -/
inductive Matches (u : Setup) (b : Backend σ) (sol : Solved σ) : Matched → Prop
  | own : Matches u b sol ⟨sol.demand.query, sol.demand.query.direction, sol.table⟩
  | site {q : BackwardQuery} {f : ForwardQuery} {t : Table}
      (backward : sol.demand.query = .backward q) (policy : u.config.propagation = .localOnly)
      (reported : f ∈ b.allocationSites sol.session q)
      (table : b.forwardTable? sol.session f = some t) :
      Matches u b sol ⟨.forward f, .forward, t⟩
  | active {q : BackwardQuery} {f : ForwardQuery} {t : Table} {rules : List ConstructorRule}
      (backward : sol.demand.query = .backward q)
      (policy : u.config.propagation = .globalRescan rules)
      (listed : f ∈ b.activeForward sol.session)
      (table : b.forwardTable? sol.session f = some t) :
      Matches u b sol ⟨.forward f, .forward, t⟩

/-- The matched table spawns a query: by the specification, or as a forward table by a
constructor rule of the policy. -/
inductive Yields (u : Setup) (m : Matched) : Spawn → Prop
  | specification {x : Spawn} (h : x ∈ u.spec.spawn u.program m.direction m.table) : Yields u m x
  | constructorRule {rule : ConstructorRule} {x : Spawn} (forward : m.direction = .forward)
      (listed : rule ∈ u.config.propagation.constructorRules)
      (h : x ∈ rule.spawn u.program m.table) : Yields u m x

variable {u : Setup} {b : Backend σ} {sol : Solved σ} {m : Matched}

theorem mem_matched_iff :
    m ∈ u.matched b sol.session sol.demand.query sol.table ↔ u.Matches b sol m := by
  constructor
  · intro h
    rcases List.mem_cons.1 h with rfl | h
    · exact .own
    · cases hq : sol.demand.query with
      | forward f => simp [hq, siteTables, rescanned] at h
      | backward q =>
        cases hpolicy : u.config.propagation with
        | localOnly =>
          simp only [hq, siteTables, rescanned, hpolicy, List.append_nil] at h
          obtain ⟨f, hf, t, ht, rfl⟩ := mem_forwardTables.1 h
          exact .site hq hpolicy hf ht
        | globalRescan rules =>
          simp only [hq, siteTables, rescanned, hpolicy, List.nil_append] at h
          obtain ⟨f, hf, t, ht, rfl⟩ := mem_forwardTables.1 h
          exact .active hq hpolicy hf ht
  · intro h
    cases h with
    | own => exact List.mem_cons_self
    | site backward policy reported table =>
      refine List.mem_cons_of_mem _ (List.mem_append_left _ ?_)
      simp only [backward, siteTables, policy]
      exact mem_forwardTables.2 ⟨_, reported, _, table, rfl⟩
    | active backward policy listed table =>
      refine List.mem_cons_of_mem _ (List.mem_append_right _ ?_)
      simp only [backward, rescanned, policy]
      exact mem_forwardTables.2 ⟨_, listed, _, table, rfl⟩

theorem mem_spawns_iff {x : Spawn} : (∃ source, (source, x) ∈ u.spawns m) ↔ u.Yields m x := by
  constructor
  · rintro ⟨source, h⟩
    rcases List.mem_append.1 h with h | h
    · obtain ⟨y, hy, heq⟩ := List.mem_map.1 h
      cases heq
      exact .specification hy
    · cases hd : m.direction with
      | backward => simp [hd] at h
      | forward =>
        simp only [hd] at h
        obtain ⟨rule, hrule, h⟩ := List.mem_flatMap.1 h
        obtain ⟨y, hy, heq⟩ := List.mem_map.1 h
        cases heq
        exact .constructorRule hd hrule hy
  · intro h
    cases h with
    | specification h => exact ⟨_, List.mem_append_left _ (List.mem_map_of_mem h)⟩
    | @constructorRule rule _ forward listed h =>
      refine ⟨.builtIn, List.mem_append_right _ ?_⟩
      rw [forward]
      exact List.mem_flatMap.2 ⟨rule, listed, List.mem_map_of_mem h⟩

/-- Whatever a matched table spawns is asked at some statement. -/
theorem Yields.asks (hp : u.program.WellFormed) {x : Spawn} (h : u.Yields m x) :
    ∃ id s, u.program.statement? id = some s ∧ s.Asks u.program x.query := by
  obtain ⟨source, hx⟩ := mem_spawns_iff.2 h
  obtain ⟨-, id, s, -, hs, hasks⟩ := asks_of_mem_spawns hp hx
  exact ⟨id, s, hs, hasks⟩

/-- A rule spawns the query for the cell at a statement: a rule group at the one that the cell's
edge leaves, and a constructor rule at the one that it enters. -/
inductive SpawnsAt (u : Setup) (direction : Direction) (c : Cell) (q : Query) : Prop
  | group {s : Statement} {g : RuleGroup} (statement : u.program.statement? c.edge.start = some s)
      (triggered : g ∈ u.spec.matching s direction c.value) (made : q ∈ g.synthesize u.program s) :
      SpawnsAt u direction c q
  | constructorRule {s : Statement} {rule : ConstructorRule} (forward : direction = .forward)
      (listed : rule ∈ u.config.propagation.constructorRules)
      (statement : u.program.statement? c.edge.target = some s)
      (made : q ∈ rule.queriesAt u.program c) : SpawnsAt u direction c q

/-- A matched table spawns what some rule does for one of its cells. -/
theorem yields_iff {x : Spawn} :
    u.Yields m x ↔ x.trigger ∈ m.table ∧ u.SpawnsAt m.direction x.trigger x.query := by
  constructor
  · intro h
    cases h with
    | specification h =>
      obtain ⟨hc, s, hs, g, hg, hq⟩ := Specification.mem_spawn.1 h
      exact ⟨hc, .group hs hg hq⟩
    | constructorRule forward listed h =>
      obtain ⟨hc, hq⟩ := ConstructorRule.mem_spawn.1 h
      obtain ⟨s, -, -, hs, -⟩ := ConstructorRule.mem_queriesAt.1 hq
      exact ⟨hc, .constructorRule forward listed hs hq⟩
  · rintro ⟨hc, h⟩
    cases h with
    | group statement triggered made =>
      exact .specification (Specification.mem_spawn.2 ⟨hc, _, statement, _, triggered, made⟩)
    | constructorRule forward listed statement made =>
      exact .constructorRule forward listed (ConstructorRule.mem_spawn.2 ⟨hc, made⟩)

/-- The demands that a solve gives rise to, in order. -/
def offspring (u : Setup) (b : Backend σ) (sol : Solved σ) : List Demand :=
  u.demands b sol.session sol.demand.query sol.table

theorem mem_offspring {d : Demand} : d ∈ u.offspring b sol ↔
    ∃ m, u.Matches b sol m ∧ ∃ x, u.Yields m x ∧ d = .within x.query x.trigger m.parent := by
  simp only [offspring, demands, List.mem_flatMap, List.mem_map, mem_matched_iff,
    ← mem_spawns_iff, Prod.exists]
  constructor
  · rintro ⟨m, hm, source, x, hx, rfl⟩
    exact ⟨m, hm, x, ⟨source, hx⟩, rfl⟩
  · rintro ⟨m, hm, x, ⟨source, hx⟩, rfl⟩
    exact ⟨m, hm, source, x, hx, rfl⟩

namespace Trace

variable {fuel : Nat} {s : σ} {p : Progress} {solved : List (Solved σ)}
  {calls : List BackendCall} {result : Except RunError Report} {report : Report}

/-- A run that leaves nothing unsolved solves what waits and then what newly arises. -/
theorem demands_eq (h : u.Trace b fuel s p solved calls result) (hresult : result = .ok report)
    (hnone : report.statistics.queriesSkipped = 0) :
    solved.map Solved.demand =
      p.agenda.queue ++ p.agenda.fresh (solved.flatMap (u.offspring b)) := by
  induction h with
  | done queue => simp [queue]
  | capped queue =>
    cases hresult
    simp [Progress.report, Progress.skipRest, Agenda.size, queue] at hnone
  | exhausted => cases hresult
  | failed => cases hresult
  | @solved _ s s' p d rest t later _ _ queue _ _ _ ih =>
    -- what is fresh does not depend on what waits
    have hpopped : ∀ ds, p.agenda.fresh ds = (p.popped rest).agenda.fresh ds := fun _ => rfl
    have hnext := ih hresult
    rw [Progress.agenda_afterSolve, Agenda.queue_pushAll] at hnext
    rw [List.map_cons, List.flatMap_cons, hpopped, Agenda.fresh_append, queue, hnext,
      List.append_assoc]
    rfl

/-- A solved demand was waiting from the start or arises from an earlier solve. -/
theorem mem_queue_or_offspring (h : u.Trace b fuel s p solved calls result)
    {before after : List (Solved σ)} (hsplit : solved = before ++ sol :: after) :
    sol.demand ∈ p.agenda.queue ∨ ∃ earlier ∈ before, sol.demand ∈ u.offspring b earlier := by
  induction h generalizing before with
  | done => simp at hsplit
  | capped => simp at hsplit
  | exhausted => simp at hsplit
  | failed => simp at hsplit
  | @solved _ s s' p d rest t later _ _ queue _ _ _ ih =>
    cases before with
    | nil =>
      obtain ⟨rfl, -⟩ := List.cons.inj hsplit
      exact .inl (queue ▸ List.mem_cons_self)
    | cons first before =>
      obtain ⟨rfl, hlater⟩ := List.cons.inj hsplit
      rcases ih hlater with hqueued | ⟨earlier, hearlier, hd⟩
      · rw [Progress.agenda_afterSolve] at hqueued
        rcases Agenda.mem_queue_pushAll hqueued with hold | hnew
        · exact .inl (queue ▸ List.mem_cons_of_mem d hold)
        · exact .inr ⟨_, List.mem_cons_self, hnew⟩
      · exact .inr ⟨earlier, List.mem_cons_of_mem _ hearlier, hd⟩

variable {policy : VisitedPolicy} {initial : Query}

theorem solved_eq_firsts (h : u.Trace b fuel s (.start policy initial) solved calls result)
    (hresult : result = .ok report) (hnone : report.statistics.queriesSkipped = 0) :
    solved.map Solved.demand =
      policy.firsts (.topLevel initial :: solved.flatMap (u.offspring b)) := by
  have hstart : (Progress.start policy initial).agenda =
      (Agenda.empty policy).pushAll [.topLevel initial] := rfl
  rw [h.demands_eq hresult hnone, hstart, Agenda.queue_pushAll, List.append_assoc,
    ← Agenda.fresh_append, Agenda.fresh_empty]
  rfl

/-- Only the first solve is at top level; every other one arises from an earlier solve. -/
theorem initial_or_offspring (h : u.Trace b fuel s (.start policy initial) solved calls result)
    (hnodup : (solved.map fun sol => policy.key sol.demand).Nodup)
    {before after : List (Solved σ)} (hsplit : solved = before ++ sol :: after) :
    (before = [] ∧ sol.demand = .topLevel initial) ∨
      ∃ earlier ∈ before, sol.demand ∈ u.offspring b earlier := by
  have hqueue : ∀ d ∈ (Progress.start policy initial).agenda.queue, d = .topLevel initial :=
    fun d hd => List.mem_singleton.1 hd
  rcases h.mem_queue_or_offspring hsplit with hinitial | hoffspring
  · left
    refine ⟨?_, hqueue _ hinitial⟩
    cases before with
    | nil => rfl
    | cons first before =>
      -- the first solve is the initial one as well, so its key would come twice
      have hfirst : first.demand = .topLevel initial := by
        have hnil : solved = [] ++ first :: (before ++ sol :: after) := hsplit
        rcases h.mem_queue_or_offspring hnil with hfirst | ⟨_, hnone, -⟩
        · exact hqueue _ hfirst
        · cases hnone
      rw [hsplit, List.cons_append, List.map_cons, List.nodup_cons, hfirst,
        ← hqueue _ hinitial] at hnodup
      exact absurd (List.mem_map_of_mem (List.mem_append_right _ List.mem_cons_self)) hnodup.1
  · exact .inr hoffspring

end Trace

/-- A run that leaves nothing unsolved has solved whatever a matched table spawned, under query
identity for whichever parent and within scope for this one. All but its first solve are of
queries spawned by earlier ones. They come in the order in which their keys first arise, with
the scope that they first arise with, and no key comes twice. -/
theorem run_solves_spawned_once (u : Setup) (b : Backend σ) (initial : Query) {report : Report}
    (hresult : (u.run b initial).result = .ok report)
    (hnone : report.statistics.queriesSkipped = 0) :
    (∀ sol ∈ (u.run b initial).solved, ∀ m, u.Matches b sol m → ∀ x, u.Yields m x →
        ∃ other ∈ (u.run b initial).solved, other.demand.query = x.query ∧
          (u.config.visitedPolicy = .queryInScope → other.demand.parent? = some m.parent)) ∧
      (∀ before sol after, (u.run b initial).solved = before ++ sol :: after →
        (before = [] ∧ sol.demand = .topLevel initial) ∨
          ∃ earlier ∈ before, ∃ m, u.Matches b earlier m ∧ ∃ x, u.Yields m x ∧
            sol.demand = .within x.query x.trigger m.parent) ∧
      (u.run b initial).solved.map Solved.demand = u.config.visitedPolicy.firsts
        (.topLevel initial :: (u.run b initial).solved.flatMap (u.offspring b)) ∧
      ((u.run b initial).solved.map fun sol => u.config.visitedPolicy.key sol.demand).Nodup := by
  obtain ⟨s, calls, htrace⟩ := trace_of_report hresult
  have hfirsts := htrace.solved_eq_firsts hresult hnone
  have hkeys := congrArg (List.map u.config.visitedPolicy.key) hfirsts
  rw [List.map_map] at hkeys
  have hnodup := hkeys ▸ u.config.visitedPolicy.nodup_keys_firsts _
  refine ⟨fun sol hsol m hm x hx => ?_, fun before sol after hsplit => ?_, hfirsts, hnodup⟩
  · have hspawned : Demand.within x.query x.trigger m.parent ∈ .topLevel initial ::
        (u.run b initial).solved.flatMap (u.offspring b) :=
      List.mem_cons_of_mem _ (List.mem_flatMap.2 ⟨sol, hsol, mem_offspring.2 ⟨m, hm, x, hx, rfl⟩⟩)
    have hkey := (u.config.visitedPolicy.mem_keys_firsts _).2 ⟨_, hspawned, rfl⟩
    rw [← hkeys] at hkey
    obtain ⟨other, hother, heq⟩ := List.mem_map.1 hkey
    refine ⟨other, hother, ?_, fun hpolicy => ?_⟩
    · have hquery := congrArg DemandKey.query heq
      rwa [Function.comp_apply, VisitedPolicy.query_key, VisitedPolicy.query_key] at hquery
    · have hparent := congrArg DemandKey.parent heq
      rwa [Function.comp_apply, hpolicy] at hparent
  · rcases htrace.initial_or_offspring hnodup hsplit with hinitial | ⟨earlier, hearlier, hd⟩
    · exact .inl hinitial
    · exact .inr ⟨earlier, hearlier, mem_offspring.1 hd⟩

/-- Either end of a relayed call leads to both ends. -/
def exchangeSetup (propagation : Propagation) (policy : VisitedPolicy) : Setup :=
  let group := (((RuleGroup.ofSignature ⟨"<M: Object relay(Object)>"⟩).addOn
    ⟨.backward, .result⟩).addOn ⟨.forward, .positional 0⟩).addGo ⟨.backward, .positional 0⟩
  ⟨Session.relayProgram, .ofGroups [group.addGo ⟨.forward, .result⟩],
    { Config.standard with propagation := propagation, visitedPolicy := policy }⟩

/-- Within scope the two queries are solved for each of the two parents that spawn them. -/
theorem run_solves_spawned_once_exchange :
    let u := exchangeSetup .localOnly .queryInScope
    let solved := (u.analyze (.backward Session.relayResult)).solved
    (∃ report, (u.analyze (.backward Session.relayResult)).result = .ok report ∧
      report.statistics.queriesSkipped = 0) ∧ solved.length = 5 ∧
      ∀ sol ∈ solved, ∀ m, u.Matches (.reachability u.program) sol m → ∀ x, u.Yields m x →
        ∃ other ∈ solved, other.demand.query = x.query ∧
          other.demand.parent? = some m.parent := by
  intro u solved
  have hend : ((u.analyze (.backward Session.relayResult)).result.toOption.map fun report =>
      report.statistics.queriesSkipped) = some 0 := by decide +kernel
  obtain ⟨report, hreport, hnone⟩ := Option.map_eq_some_iff.1 hend
  have hrun := eq_ok_of_toOption hreport
  refine ⟨⟨report, hrun, hnone⟩, by decide +kernel, fun sol hsol m hm x hx => ?_⟩
  obtain ⟨other, hother, hquery, hparent⟩ :=
    (run_solves_spawned_once u _ _ hrun hnone).1 sol hsol m hm x hx
  exact ⟨other, hother, hquery, hparent rfl⟩

end Setup

end GuidedDataflow
