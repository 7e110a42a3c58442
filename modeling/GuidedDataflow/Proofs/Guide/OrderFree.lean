import Mathlib.Order.Bounds.Basic
import GuidedDataflow.Proofs.Guide.Ancestry
import GuidedDataflow.Proofs.Rule.Grouping
import GuidedDataflow.Proofs.Solver.Flat

/-!
What an analysis of a flat program computes, without regard to order. Each query then has one
table and one set of sites, whenever it is solved and for whichever parent. So a set of queries
says which tables are matched once they are solved, and the queries that an analysis solves are
the least set that has the initial one and whatever these tables spawn. Neither the visited policy
nor the order of the rule groups shows in it.
-/

namespace GuidedDataflow

open Session

namespace Setup

section Definitions

variable (u : Setup)

/-- The table of the query, solved at top level in a new session. -/
def tableOf (q : Query) : Table := (u.opened.storeOf q topSeeds).table

/-- The allocation sites of the query, solved at top level in a new session. -/
def sitesOf (b : BackwardQuery) : OrderedSet ForwardQuery :=
  (u.opened.exploreBackward b topSeeds).sites

/-- Where the queries of the set are solved there is a table of the forward query: it is one of
them or a site of one. -/
def Active (S : Set Query) (f : ForwardQuery) : Prop :=
  .forward f ∈ S ∨ ∃ b, .backward b ∈ S ∧ f ∈ u.sitesOf b

/-- Where the queries of the set are solved the policy matches the table on behalf of its parent. -/
inductive MatchedOver (S : Set Query) : Matched → Prop
  | own {q : Query} (solved : q ∈ S) : MatchedOver S ⟨q, q.direction, u.tableOf q⟩
  | site {b : BackwardQuery} {f : ForwardQuery} (solved : .backward b ∈ S)
      (policy : u.config.propagation = .localOnly) (found : f ∈ u.sitesOf b) :
      MatchedOver S ⟨.forward f, .forward, u.tableOf (.forward f)⟩
  | active {b : BackwardQuery} {f : ForwardQuery} {rules : List ConstructorRule}
      (solved : .backward b ∈ S) (policy : u.config.propagation = .globalRescan rules)
      (active : u.Active S f) : MatchedOver S ⟨.forward f, .forward, u.tableOf (.forward f)⟩

/-- The set has the initial query and whatever the tables matched over it spawn. -/
structure Closed (initial : Query) (S : Set Query) : Prop where
  initial : initial ∈ S
  spawned : ∀ m, u.MatchedOver S m → ∀ x, u.Yields m x → x.query ∈ S

/-- The queries that an analysis solves. -/
def solvedQueries (initial : Query) : Set Query :=
  {q | ∃ sol ∈ (u.analyze initial).solved, sol.demand.query = q}

/-- The solve is as one at top level in a new session, and so are those that its session shows. -/
structure Afresh (sol : Solved Session) : Prop where
  table : sol.table = u.tableOf sol.demand.query
  sites : ∀ f, Finds (.reachability u.program) sol f ↔
    ∃ b, sol.demand.query = .backward b ∧ f ∈ u.sitesOf b
  tables : ∀ f t, sol.session.forwardTable? f = some t → t = u.tableOf (.forward f)
  brought : ∀ f, Brings (.reachability u.program) sol (.forward f) →
    sol.session.forwardTable? f = some (u.tableOf (.forward f))

end Definitions

variable {u : Setup} {initial : Query} {solved : List (Solved Session)} {s : Session}
  {p : Progress}

theorem storeOf_ready (hs : s.Ready u.program u.config.solverOptions) (q : Query) :
    (s.storeOf q topSeeds).table = u.tableOf q := by
  rw [tableOf, storeOf_eq (s := u.opened) hs.program hs.options]

theorem sites_ready (hs : s.Ready u.program u.config.solverOptions) (b : BackwardQuery) :
    (s.exploreBackward b topSeeds).sites = u.sitesOf b := by
  unfold sitesOf exploreBackward explore
  rw [hs.program, hs.options]
  rfl

/-- Solving a query first of all gives its table and finds its sites. -/
theorem solve_opened (hp : u.program.WellFormed) {q : Query} (hq : u.program.Knows q.edge) :
    ∃ s, u.opened.solve (.topLevel q) = .ok (u.tableOf q, s) ∧ ∀ b, q = .backward b →
      ∀ f, f ∈ (Backend.reachability u.program).allocationSites s b ↔ f ∈ u.sitesOf b := by
  refine ⟨u.opened.after q topSeeds, ?_, ?_⟩
  · rw [solve_topLevel rfl]
    exact solveFrom_eq hp (ready_opened u).coherent rfl q hq topSeeds
  · rintro b rfl f
    exact iff_of_eq (congrArg (f ∈ ·) (reachability_allocationSites_after u.opened b topSeeds))

section Flat

variable (hp : u.program.WellFormed) (hflat : u.program.Flat)
include hp hflat

theorem afresh_solve (hs : s.Ready u.program u.config.solverOptions) (hempty : s.Flat)
    (htables : ∀ f t, s.forwardTable? f = some t → t = u.tableOf (.forward f)) {d : Demand}
    {t : Table} {s' : Session} (hsolve : s.solve d = .ok (t, s')) : u.Afresh ⟨d, t, s'⟩ := by
  obtain ⟨-, -, rfl, ht⟩ := hs.solve_flat hp hflat hempty hsolve
  have hsites : ∀ f, Finds (.reachability u.program) ⟨d, t, s.after d.query topSeeds⟩ f ↔
      ∃ b, d.query = .backward b ∧ f ∈ u.sitesOf b := by
    intro f
    rw [finds_after hs.program]
    simp only [sites_ready hs]
  have hbrought : ∀ f, Brings (.reachability u.program) ⟨d, t, s.after d.query topSeeds⟩
      (.forward f) →
        (s.after d.query topSeeds).forwardTable? f = some (u.tableOf (.forward f)) := by
    intro f hf
    rw [brings_forward, finds_after hs.program] at hf
    rw [forwardTable?_after_flat hp hflat hs hf, storeOf_ready hs]
  refine ⟨ht.trans (storeOf_ready hs d.query), hsites, fun f t' hf => ?_, hbrought⟩
  rcases brings_or_kept hs.program d topSeeds t hf with hnew | hkept
  · exact Option.some.inj (hf.symm.trans (hbrought f hnew))
  · exact htables f t' hkept

/-- All solves of an analysis are as afresh. -/
theorem afresh_of_analyze {report : Report} (hrun : (u.analyze initial).result = .ok report) :
    ∀ sol ∈ (u.analyze initial).solved, u.Afresh sol := by
  obtain ⟨-, -, ⟨-, -, -, hafresh⟩, -⟩ := analyze_invariant hrun
    (motive := fun done s _ => s.Ready u.program u.config.solverOptions ∧ s.Flat ∧
      (∀ f t, s.forwardTable? f = some t → t = u.tableOf (.forward f)) ∧
        ∀ sol ∈ done, u.Afresh sol)
    ⟨ready_opened u, upholds_of_start (start_opened (validate_of_analyze hrun)),
      fun _ _ h => (nomatch h), fun _ h => (nomatch h)⟩
    (by
      rintro done s p d rest t s' - hsolve ⟨hs, hempty, htables, hdone⟩
      have hnew := afresh_solve hp hflat hs hempty htables hsolve
      obtain ⟨hready, hempty', -, -⟩ := hs.solve_flat hp hflat hempty hsolve
      refine ⟨hready, hempty', hnew.tables, fun sol hsol => ?_⟩
      rcases List.mem_append.1 hsol with hold | hsol
      · exact hdone sol hold
      · exact List.mem_singleton.1 hsol ▸ hnew)
  exact hafresh

end Flat

section Least

variable (h : u.Grown initial solved s p) (hafresh : ∀ sol ∈ solved, u.Afresh sol)
include hafresh

theorem active_iff {f : ForwardQuery} :
    u.Active {q | ∃ sol ∈ solved, sol.demand.query = q} f ↔
      ∃ sol ∈ solved, Brings (.reachability u.program) sol (.forward f) := by
  constructor
  · rintro (⟨sol, hsol, hq⟩ | ⟨b, ⟨sol, hsol, hq⟩, hsite⟩)
    · exact ⟨sol, hsol, brings_forward.2 (.inl hq)⟩
    · exact ⟨sol, hsol, brings_forward.2 (.inr (((hafresh sol hsol).sites f).2 ⟨b, hq, hsite⟩))⟩
  · rintro ⟨sol, hsol, hbrings⟩
    rcases brings_forward.1 hbrings with hq | hfinds
    · exact .inl ⟨sol, hsol, hq⟩
    · obtain ⟨b, hq, hsite⟩ := ((hafresh sol hsol).sites f).1 hfinds
      exact .inr ⟨b, ⟨sol, hsol, hq⟩, hsite⟩

/-- Whatever is matched over the solved queries is matched after one of the solves: a site after
the solve that finds it, and a forward query's own table at once. -/
theorem exists_matches {m : Matched}
    (hm : u.MatchedOver {q | ∃ sol ∈ solved, sol.demand.query = q} m) :
    ∃ sol ∈ solved, u.Matches (.reachability u.program) sol m := by
  have hown : ∀ sol ∈ solved, u.Matches (.reachability u.program) sol
      ⟨sol.demand.query, sol.demand.query.direction, u.tableOf sol.demand.query⟩ := fun sol hsol =>
    (hafresh sol hsol).table ▸ .own
  have htable : ∀ sol ∈ solved, ∀ f, Finds (.reachability u.program) sol f →
      sol.session.forwardTable? f = some (u.tableOf (.forward f)) := fun sol hsol f hfinds =>
    (hafresh sol hsol).brought f (brings_forward.2 (.inr hfinds))
  cases hm with
  | own hsolved =>
    obtain ⟨sol, hsol, rfl⟩ := hsolved
    exact ⟨sol, hsol, hown sol hsol⟩
  | @site b f hsolved policy found =>
    obtain ⟨sol, hsol, hq⟩ := hsolved
    have hfinds := ((hafresh sol hsol).sites f).2 ⟨b, hq, found⟩
    obtain ⟨b', hq', hreported⟩ := id hfinds
    exact ⟨sol, hsol, .site hq' policy hreported (htable sol hsol f hfinds)⟩
  | @active b f rules hsolved policy active =>
    obtain ⟨sol, hsol, hbrings⟩ := (active_iff hafresh).1 active
    rcases brings_forward.1 hbrings with hq | hfinds
    · have hmatches := hown sol hsol
      rw [hq] at hmatches
      exact ⟨sol, hsol, hmatches⟩
    · have hforward := htable sol hsol f hfinds
      obtain ⟨b', hq', -⟩ := hfinds
      exact ⟨sol, hsol, .active hq' policy (mem_activeForward hforward) hforward⟩

include h

/-- What has been solved is closed under spawning once nothing waits. -/
theorem closed_of_grown (hqueue : p.agenda.queue = []) :
    u.Closed initial {q | ∃ sol ∈ solved, sol.demand.query = q} := by
  have haccepted := h.lineage.accepted
  rw [hqueue, List.append_nil] at haccepted
  refine ⟨?_, fun m hm x hx => ?_⟩
  · have hmem : Demand.topLevel initial ∈ solved.map Solved.demand :=
      haccepted ▸ List.mem_cons_self
    obtain ⟨sol, hsol, heq⟩ := List.mem_map.1 hmem
    exact ⟨sol, hsol, congrArg Demand.query heq⟩
  · obtain ⟨sol, hsol, hmatches⟩ := exists_matches hafresh hm
    have hseen := h.offspring sol hsol _ (mem_offspring.2 ⟨m, hmatches, x, hx, rfl⟩)
    rw [← List.mem_reverse, h.lineage.visited, hqueue, List.append_nil, List.map_map] at hseen
    obtain ⟨other, hother, hkey⟩ := List.mem_map.1 hseen
    have hquery := congrArg DemandKey.query hkey
    rw [Function.comp_apply, VisitedPolicy.query_key, VisitedPolicy.query_key] at hquery
    exact ⟨other, hother, hquery⟩

/-- Whatever is asked lies in every closed set. -/
theorem mem_of_closed {S : Set Query} (hS : u.Closed initial S) {sol : Solved Session}
    (hsol : sol ∈ solved) : sol.demand.query ∈ S := by
  have hchild : ∀ e ∈ p.provenance.edges, e.child ∈ S := by
    intro e he
    refine h.child_induction (motive := (· ∈ S)) hS.initial
      (fun before e _ hexplains hearlier => ?_) he
    obtain ⟨sol, hsol, hasked, m, hm, hparent, hyields⟩ := hexplains.spawned
    have hquery := hearlier _ hasked
    refine hS.spawned m ?_ _ hyields
    have hsolAfresh := hafresh sol hsol
    cases hm with
    | own =>
      rw [hsolAfresh.table]
      exact .own hquery
    | @site b f t backward policy reported table =>
      obtain ⟨b', hb', hsite⟩ := (hsolAfresh.sites f).1 ⟨b, backward, reported⟩
      obtain rfl := hsolAfresh.tables f t table
      exact .site (hb' ▸ hquery) policy hsite
    | @active b f t rules backward policy listed table =>
      obtain rfl := hsolAfresh.tables f t table
      refine .active (backward ▸ hquery) policy ?_
      obtain ⟨other, hother, hasked, hbrings⟩ := hexplains.brought
      rw [← hparent] at hbrings
      have hotherQuery := hearlier _ hasked
      rcases brings_forward.1 hbrings with hq | hfinds
      · exact .inl (hq ▸ hotherQuery)
      · obtain ⟨b', hb', hsite⟩ := ((hafresh other hother).sites f).1 hfinds
        exact .inr ⟨b', hb' ▸ hotherQuery, hsite⟩
  rcases h.asked hsol with hinitial | hlater
  · exact hinitial ▸ hS.initial
  · obtain ⟨e, he, heq⟩ := List.mem_map.1 hlater
    exact heq ▸ hchild e he

end Least

/-- The setups search alike: they may differ in the visited policy and the cap on queries, and in
the order and number of the groups that they have for a signature. -/
structure Alike (u v : Setup) : Prop where
  program : v.program = u.program
  propagation : v.config.propagation = u.config.propagation
  options : v.config.solverOptions = u.config.solverOptions
  groups : ∀ signature g, g ∈ v.spec.groupsFor signature ↔ g ∈ u.spec.groupsFor signature

namespace Alike

variable {v : Setup} (h : u.Alike v)
include h

theorem symm : v.Alike u :=
  ⟨h.program.symm, h.propagation.symm, h.options.symm,
    fun signature g => (h.groups signature g).symm⟩

theorem opened : v.opened = u.opened := by
  rw [Setup.opened, h.program, h.options]
  rfl

theorem validate : v.config.validate = u.config.validate := by
  have htimeout := congrArg SolverOptions.timeoutMs h.options
  have hdepth := congrArg SolverOptions.maxCallDepth h.options
  simp only [Config.solverOptions] at htimeout hdepth
  unfold Config.validate
  rw [htimeout, hdepth, h.propagation]

theorem spawnsAt {d : Direction} {c : Cell} {q : Query} (hq : u.SpawnsAt d c q) :
    v.SpawnsAt d c q := by
  cases hq with
  | @group s g statement triggered made =>
    obtain ⟨call, hcall, hmem, hon⟩ := Specification.mem_matching.1 triggered
    exact .group (h.program ▸ statement)
      (Specification.mem_matching.2 ⟨call, hcall, (h.groups call.target g).2 hmem, hon⟩)
      (h.program ▸ made)
  | constructorRule forward listed statement made =>
    exact .constructorRule forward (h.propagation ▸ listed) (h.program ▸ statement)
      (h.program ▸ made)

theorem tableOf : v.tableOf = u.tableOf := by
  unfold Setup.tableOf
  rw [h.opened]

theorem active {S : Set Query} {f : ForwardQuery} (hf : u.Active S f) : v.Active S f := by
  unfold Active sitesOf at hf ⊢
  rw [h.opened]
  exact hf

theorem matchedOver {S : Set Query} {m : Matched} (hm : u.MatchedOver S m) : v.MatchedOver S m := by
  cases hm with
  | own solved =>
    rw [← h.tableOf]
    exact .own solved
  | site solved policy found =>
    rw [← h.tableOf]
    refine .site solved (h.propagation.trans policy) ?_
    rw [sitesOf, h.opened]
    exact found
  | active solved policy active =>
    rw [← h.tableOf]
    exact .active solved (h.propagation.trans policy) (h.active active)

/-- Alike setups have the same closed sets. -/
theorem closed {S : Set Query} (hS : u.Closed initial S) : v.Closed initial S := by
  refine ⟨hS.initial, fun m hm x hx => ?_⟩
  obtain ⟨htrigger, hspawns⟩ := yields_iff.1 hx
  exact hS.spawned m (h.symm.matchedOver hm) x (yields_iff.2 ⟨htrigger, h.symm.spawnsAt hspawns⟩)

end Alike

/-- The queries that an uncapped analysis of a flat program solves are the least closed set, and
it reports the literal sites among those that are active over it. -/
theorem analyze_least (hp : u.program.WellFormed) (hflat : u.program.Flat)
    (hcap : u.config.maxQueries = 0) {report : Report}
    (hrun : (u.analyze initial).result = .ok report) :
    IsLeast {S | u.Closed initial S} (u.solvedQueries initial) ∧
      ∀ f, f ∈ report.allocationSites ↔ SiteCollector.isLiteralSite u.program f = true ∧
        u.Active (u.solvedQueries initial) f := by
  obtain ⟨s, p, hgrown, hends⟩ := exists_grown hp hrun
  have hafresh := afresh_of_analyze hp hflat hrun
  obtain ⟨hqueue, rfl⟩ : p.agenda.queue = [] ∧ report = p.report := by
    refine hends.resolve_right ?_
    rintro ⟨-, hreached, -⟩
    simp [Progress.capReached, hcap] at hreached
  refine ⟨⟨closed_of_grown hgrown hafresh hqueue, ?_⟩, fun f => ?_⟩
  · rintro S hS _ ⟨sol, hsol, rfl⟩
    exact mem_of_closed hgrown hafresh hS hsol
  · rw [solvedQueries, active_iff hafresh]
    exact hgrown.collected f

/-- Two analyses solve the same queries and report the same allocation sites. -/
def SameOutcome (u v : Setup) (initial : Query) : Prop :=
  u.solvedQueries initial = v.solvedQueries initial ∧
    (u.analyze initial).result.map Report.allocationSites =
      (v.analyze initial).result.map Report.allocationSites

theorem exists_report (hp : u.program.WellFormed) (hv : u.config.validate = .ok ())
    (hknows : u.program.Knows initial.edge) :
    ∃ report, (u.analyze initial).result = .ok report := by
  obtain ⟨calls, -, htrace⟩ := trace_analyze hv initial
  exact htrace.reports hp (sound_start hknows)

theorem Alike.sameOutcome {v : Setup} (h : u.Alike v) (hp : u.program.WellFormed)
    (hflat : u.program.Flat) (hu : u.config.maxQueries = 0) (hv : v.config.maxQueries = 0)
    (hknows : u.program.Knows initial.edge) : u.SameOutcome v initial := by
  cases hvalid : u.config.validate with
  | error e =>
    have hnear : u.analyze initial = ⟨[], [], .error (.config e)⟩ := run_of_refused hvalid
    have hfar : v.analyze initial = ⟨[], [], .error (.config e)⟩ :=
      run_of_refused (h.validate.trans hvalid)
    unfold SameOutcome solvedQueries
    rw [hnear, hfar]
    exact ⟨rfl, rfl⟩
  | ok =>
    obtain ⟨near, hnear⟩ := exists_report hp hvalid hknows
    obtain ⟨far, hfar⟩ := exists_report (h.program ▸ hp) (h.validate.trans hvalid)
      (h.program ▸ hknows)
    obtain ⟨hleast, hsites⟩ := analyze_least hp hflat hu hnear
    obtain ⟨hleast', hsites'⟩ := analyze_least (h.program ▸ hp) (h.program ▸ hflat) hv hfar
    have hsame : u.solvedQueries initial = v.solvedQueries initial := by
      refine hleast.unique ?_
      have hclosed : {S | u.Closed initial S} = {S | v.Closed initial S} :=
        Set.ext fun S => ⟨h.closed, h.symm.closed⟩
      rw [hclosed]
      exact hleast'
    refine ⟨hsame, ?_⟩
    rw [hnear, hfar]
    refine congrArg Except.ok (OrderedSet.ext fun f => ?_)
    rw [hsites, hsites', ← hsame, h.program]
    exact and_congr_right fun _ => ⟨h.active, h.symm.active⟩

/-- The setup with another visited policy. -/
def withVisitedPolicy (u : Setup) (policy : VisitedPolicy) : Setup :=
  { u with config := { u.config with visitedPolicy := policy } }

/-- The setup with a specification to which the groups were added in this order. -/
def withGroups (u : Setup) (groups : List RuleGroup) : Setup :=
  { u with spec := .ofGroups groups }

/-- In a flat program an uncapped analysis solves the least set of queries that has the initial
one and is closed under spawning from the tables that its policy matches. So neither the visited
policy nor the order in which rule groups were added shows in what it solves and reports. -/
theorem analyze_order_free {parts : List (Signature × List Instruction)}
    (hp : Program.build parts = .ok u.program) (hflat : u.program.Flat)
    (hcap : u.config.maxQueries = 0) (hknows : u.program.Knows initial.edge) :
    (u.config.validate = .ok () → (∃ report, (u.analyze initial).result = .ok report) ∧
        IsLeast {S | u.Closed initial S} (u.solvedQueries initial)) ∧
      (∀ policy, u.SameOutcome (u.withVisitedPolicy policy) initial) ∧
      ∀ groups others : List RuleGroup, (∀ g, g ∈ groups ↔ g ∈ others) →
        (u.withGroups groups).SameOutcome (u.withGroups others) initial := by
  have hwf := Program.wellFormed_of_build hp
  refine ⟨fun hv => ?_, fun policy => ?_, fun groups others hsame => ?_⟩
  · obtain ⟨report, hrun⟩ := exists_report hwf hv hknows
    exact ⟨⟨report, hrun⟩, (analyze_least hwf hflat hcap hrun).1⟩
  · have halike : u.Alike (u.withVisitedPolicy policy) := ⟨rfl, rfl, rfl, fun _ _ => Iff.rfl⟩
    exact halike.sameOutcome hwf hflat hcap hcap hknows
  · have halike : (u.withGroups groups).Alike (u.withGroups others) := by
      refine ⟨rfl, rfl, rfl, fun signature g => ?_⟩
      unfold withGroups
      rw [Specification.mem_groupsFor_ofGroups, Specification.mem_groupsFor_ofGroups, hsame]
    exact halike.sameOutcome hwf hflat hcap hcap hknows

/-- The exchange in a program that lacks the method called. -/
def opaqueExchange : Setup :=
  { exchangeSetup .localOnly .queryIdentity with
    program := (Program.build (relayParts.take 1)).toOption.getD .empty }

/-- Within scope two of the three queries are solved twice, for each of two parents. -/
theorem analyze_order_free_opaque :
    let u := opaqueExchange
    let initial := Query.backward relayResult
    let nested := u.withVisitedPolicy .queryInScope
    let relay := RuleGroup.ofSignature ⟨"<M: Object relay(Object)>"⟩
    let back := (relay.addOn ⟨.backward, .result⟩).addGo ⟨.backward, .positional 0⟩
    let forth := (relay.addOn ⟨.forward, .positional 0⟩).addGo ⟨.forward, .result⟩
    (u.analyze initial).solved.length = 3 ∧ (nested.analyze initial).solved.length = 5 ∧
      IsLeast {S | u.Closed initial S} (u.solvedQueries initial) ∧
      u.SameOutcome nested initial ∧
      (u.withGroups [back, forth]).SameOutcome (u.withGroups [forth, back]) initial := by
  intro u initial nested relay back forth
  have hp : Program.build (relayParts.take 1) = .ok u.program := rfl
  have hflat : u.program.Flat := by
    unfold Program.Flat
    decide +kernel
  have hknows : u.program.Knows initial.edge := ⟨⟨_, rfl⟩, ⟨_, rfl⟩⟩
  obtain ⟨hleast, hpolicies, horders⟩ := analyze_order_free hp hflat rfl hknows
  refine ⟨by decide +kernel, by decide +kernel, (hleast rfl).2, hpolicies .queryInScope,
    horders _ _ fun g => ?_⟩
  simp only [List.mem_cons, List.not_mem_nil, or_false]
  exact Or.comm

end Setup

end GuidedDataflow
