import GuidedDataflow.Proofs.Guide.Lineage

/-!
Where what an analysis solves comes from. Each table that its session holds was brought by a
solve, which solved the query or found it as an allocation site. So each edge of the provenance
has its parent and its rule from queries that were asked before: the initial one or children of
earlier edges. What they hand on therefore holds of all that is asked.
-/

namespace GuidedDataflow

open Session

variable {σ : Type}

namespace SiteCollector

/-- Of the queries considered the literal sites are collected. -/
theorem mem_sites_foldl_consider {c : SiteCollector} {p : Program} {fs : List ForwardQuery}
    {f : ForwardQuery} : f ∈ (fs.foldl (·.consider p ·) c).sites ↔
      f ∈ c.sites ∨ (isLiteralSite p f = true ∧ f ∈ fs) := by
  induction fs generalizing c with
  | nil => simp
  | cons g fs ih =>
    rw [List.foldl_cons, ih, consider]
    split
    · next hg =>
      rw [OrderedSet.mem_insert, List.mem_cons]
      constructor
      · rintro ((rfl | hold) | ⟨hf, hlater⟩)
        · exact .inr ⟨hg, .inl rfl⟩
        · exact .inl hold
        · exact .inr ⟨hf, .inr hlater⟩
      · rintro (hold | ⟨hf, rfl | hlater⟩)
        · exact .inl (.inr hold)
        · exact .inl (.inl rfl)
        · exact .inr ⟨hf, hlater⟩
    · next hg =>
      rw [List.mem_cons]
      refine or_congr_right (and_congr_right fun hf => ?_)
      exact (or_iff_right fun heq : f = g => hg (heq ▸ hf)).symm

end SiteCollector

/-- A forward table of a session is that of the latest solve, of a site that it has found, or was
there before. -/
theorem Session.forwardTable?_after_cases {s : Session} {q : Query} {seeds : Seeds}
    {f : ForwardQuery} {t : Table} (h : (s.after q seeds).forwardTable? f = some t) :
    q = .forward f ∨ (∃ b, q = .backward b ∧ f ∈ (s.exploreBackward b seeds).sites) ∨
      s.forwardTable? f = some t := by
  cases q with
  | forward q =>
    rw [after, forwardTable?_recordForward] at h
    split at h
    · next heq => exact .inl (congrArg Query.forward heq)
    · exact .inr (.inr h)
  | backward b =>
    rw [forwardTable?_after_backward] at h
    split at h
    · next hsite => exact .inr (.inl ⟨b, rfl, hsite⟩)
    · exact .inr (.inr h)

namespace Setup

/-- The solve is backward and reports the allocation site. -/
def Finds (b : Backend σ) (sol : Solved σ) (f : ForwardQuery) : Prop :=
  ∃ q, sol.demand.query = .backward q ∧ f ∈ b.allocationSites sol.session q

/-- The query has been solved, or is a site that the solve has found. -/
def Brings (b : Backend σ) (sol : Solved σ) (q : Query) : Prop :=
  q = sol.demand.query ∨ ∃ f, Finds b sol f ∧ q = .forward f

theorem finds_after {u : Setup} {s : Session} (hprogram : s.program = u.program) (d : Demand)
    (seeds : Seeds) (t : Table) (f : ForwardQuery) :
    Finds (.reachability u.program) ⟨d, t, s.after d.query seeds⟩ f ↔
      ∃ b, d.query = .backward b ∧ f ∈ (s.exploreBackward b seeds).sites := by
  refine exists_congr fun b => and_congr_right fun hb => ?_
  show f ∈ (Backend.reachability u.program).allocationSites (s.after d.query seeds) b ↔ _
  rw [hb, ← hprogram, reachability_allocationSites_after]

/-- A site that a solve has found is one where a value is allocated. -/
theorem exists_allocation_of_finds {u : Setup} {s : Session} (hprogram : s.program = u.program)
    {d : Demand} {seeds : Seeds} {t : Table} {f : ForwardQuery}
    (h : Finds (.reachability u.program) ⟨d, t, s.after d.query seeds⟩ f) :
    ∃ fact, Flow.allocation? u.program fact = some f := by
  obtain ⟨b, -, hsite⟩ := (finds_after hprogram d seeds t f).1 h
  obtain ⟨context, hcontext⟩ := BackwardRun.mem_sites.1 hsite
  obtain ⟨fact, -, hfound, -⟩ := mem_contextsOf_exploreBackward.1 hcontext
  exact ⟨fact, hprogram ▸ hfound⟩

/-- After a solve the session has the tables that it brings and those that were there before. -/
theorem brings_or_kept {u : Setup} {s : Session} (hprogram : s.program = u.program) (d : Demand)
    (seeds : Seeds) (t : Table) {f : ForwardQuery} {t' : Table}
    (h : (s.after d.query seeds).forwardTable? f = some t') :
    Brings (.reachability u.program) ⟨d, t, s.after d.query seeds⟩ (.forward f) ∨
      s.forwardTable? f = some t' := by
  rcases forwardTable?_after_cases h with hown | hsite | hkept
  · exact .inl (.inl hown.symm)
  · exact .inl (.inr ⟨f, (finds_after hprogram d seeds t f).2 hsite, rfl⟩)
  · exact .inr hkept

theorem brings_forward {b : Backend σ} {sol : Solved σ} {f : ForwardQuery} :
    Brings b sol (.forward f) ↔ sol.demand.query = .forward f ∨ Finds b sol f := by
  refine or_congr eq_comm ⟨?_, fun h => ⟨f, h, rfl⟩⟩
  rintro ⟨_, hfinds, heq⟩
  cases heq
  exact hfinds

/-- The candidates of a solve are the forward queries that it brings. -/
theorem mem_candidates {b : Backend σ} {sol : Solved σ} {f : ForwardQuery} :
    f ∈ candidates b sol.session sol.demand.query ↔ Brings b sol (.forward f) := by
  rw [brings_forward, Finds]
  cases sol.demand.query with
  | forward q => simp [candidates, eq_comm]
  | backward q => simp [candidates, OrderedSet.mem_def]

theorem collector_afterSolve (u : Setup) (b : Backend σ) (p : Progress) (s : σ) (d : Demand)
    (t : Table) : (p.afterSolve u b s d t).collector =
      (candidates b s d.query).foldl (·.consider u.program ·) p.collector := by
  refine Progress.afterSolve_induction (motive := fun q => q.collector =
    (candidates b s d.query).foldl (·.consider u.program ·) p.collector) rfl fun q m x _ _ hq => ?_
  rw [← hq]
  simp only [Progress.enqueue]
  split <;> rfl

/-- Where the literal sites have been collected among the forward queries that the solves have
brought, they are after another solve. -/
theorem mem_sites_afterSolve {u : Setup} {b : Backend σ} {done : List (Solved σ)} {p : Progress}
    (hdone : ∀ f, f ∈ p.collector.sites ↔ SiteCollector.isLiteralSite u.program f = true ∧
      ∃ sol ∈ done, Brings b sol (.forward f))
    (rest : List Demand) (d : Demand) (t : Table) (s : σ) (f : ForwardQuery) :
    f ∈ ((p.popped rest).afterSolve u b s d t).collector.sites ↔
      SiteCollector.isLiteralSite u.program f = true ∧
        ∃ sol ∈ done ++ [⟨d, t, s⟩], Brings b sol (.forward f) := by
  have hcandidates : f ∈ candidates b s d.query ↔ Brings b ⟨d, t, s⟩ (.forward f) :=
    @mem_candidates _ b ⟨d, t, s⟩ f
  rw [collector_afterSolve, SiteCollector.mem_sites_foldl_consider, hcandidates]
  simp only [Progress.popped, hdone, List.mem_append, List.mem_singleton, or_and_right, exists_or,
    exists_eq_left, and_or_left]

/-- The query is the initial one or the child of a listed edge. -/
def Asked (initial : Query) (before : List ProvenanceEdge) (q : Query) : Prop :=
  q = initial ∨ q ∈ before.map ProvenanceEdge.child

/-- What was taken off the agenda waited there as the initial query or as the child of an edge. -/
theorem asked_of_taken {p : Progress} {policy : VisitedPolicy} {initial : Query}
    {taken : List Demand} (h : p.Lineage policy initial taken) {d : Demand} (hd : d ∈ taken) :
    Asked initial p.provenance.edges d.query := by
  have hmem : d ∈ .topLevel initial :: p.provenance.edges.map ProvenanceEdge.demand :=
    h.accepted ▸ List.mem_append_left _ hd
  rcases List.mem_cons.1 hmem with hinitial | hlater
  · exact .inl (congrArg Demand.query hinitial)
  · obtain ⟨e, he, heq⟩ := List.mem_map.1 hlater
    exact .inr (heq ▸ List.mem_map_of_mem he)

/-- A table that is matched after a solve spawns the child at the trigger for the parent, and some
solve has brought the parent. Both are solves of queries asked before the edge. -/
structure Explains (u : Setup) (b : Backend σ) (initial : Query) (done : List (Solved σ))
    (before : List ProvenanceEdge) (e : ProvenanceEdge) : Prop where
  spawned : ∃ sol ∈ done, Asked initial before sol.demand.query ∧ ∃ m, u.Matches b sol m ∧
    m.parent = e.parent ∧ u.Yields m ⟨e.child, e.trigger⟩
  brought : ∃ sol ∈ done, Asked initial before sol.demand.query ∧ Brings b sol e.parent

theorem Explains.append {u : Setup} {b : Backend σ} {initial : Query} {done : List (Solved σ)}
    {before : List ProvenanceEdge} {e : ProvenanceEdge} (h : u.Explains b initial done before e)
    (later : List (Solved σ)) : u.Explains b initial (done ++ later) before e := by
  obtain ⟨⟨sol, hsol, hspawned⟩, other, hother, hbrought⟩ := h
  exact ⟨⟨sol, List.mem_append_left _ hsol, hspawned⟩, other, List.mem_append_left _ hother,
    hbrought⟩

/-- An accepted child is explained by the edges before it, since all that has been solved is the
initial query or the child of one of these. -/
theorem explains_enqueue {u : Setup} {b : Backend σ} {initial : Query} {done : List (Solved σ)}
    {p : Progress} {policy : VisitedPolicy} {taken : List Demand}
    (hlineage : p.Lineage policy initial taken)
    (hedges : ∀ before e after, p.provenance.edges = before ++ e :: after →
      u.Explains b initial done before e)
    (htaken : ∀ sol ∈ done, sol.demand ∈ taken) {sol : Solved σ} (hsol : sol ∈ done) {m : Matched}
    (hm : u.Matches b sol m) (hparent : ∃ other ∈ done, Brings b other m.parent)
    {source : SpawnSource} {x : Spawn} (hx : (source, x) ∈ u.spawns m) :
    ∀ before e after, (p.enqueue m.parent source x).provenance.edges = before ++ e :: after →
      u.Explains b initial done before e := by
  have hasked : ∀ other ∈ done, Asked initial p.provenance.edges other.demand.query :=
    fun other hother => asked_of_taken hlineage (htaken other hother)
  intro before e after hsplit
  cases haccepts : p.agenda.accepts (.within x.query x.trigger m.parent) with
  | false =>
    simp only [Progress.enqueue, haccepts, Bool.false_eq_true, if_false] at hsplit
    exact hedges before e after hsplit
  | true =>
    rw [hlineage.provenance_enqueue source haccepts] at hsplit
    rcases List.eq_nil_or_concat after with rfl | ⟨earlier, last, rfl⟩
    · -- the edge is the new one
      obtain ⟨rfl, hlast⟩ := List.append_inj' hsplit rfl
      obtain rfl := List.singleton_inj.1 hlast
      obtain ⟨other, hother, hbrings⟩ := hparent
      exact ⟨⟨sol, hsol, hasked sol hsol, m, hm, rfl, mem_spawns_iff.1 ⟨source, hx⟩⟩,
        other, hother, hasked other hother, hbrings⟩
    · rw [List.concat_eq_append, ← List.cons_append, ← List.append_assoc] at hsplit
      exact hedges before e earlier (List.append_inj' hsplit rfl).1

/-- A solve explains the edges that it adds if what it matches is for parents brought by then. -/
theorem explains_afterSolve {u : Setup} {b : Backend σ} {initial : Query} {done : List (Solved σ)}
    {p : Progress} {policy : VisitedPolicy} {d : Demand} {rest : List Demand} {t : Table} {s : σ}
    (hlineage : p.Lineage policy initial (done.map Solved.demand))
    (hqueue : p.agenda.queue = d :: rest)
    (hedges : ∀ before e after, p.provenance.edges = before ++ e :: after →
      u.Explains b initial done before e)
    (hparents : ∀ m, u.Matches b ⟨d, t, s⟩ m →
      ∃ other ∈ done ++ [⟨d, t, s⟩], Brings b other m.parent) :
    ∀ before e after,
      ((p.popped rest).afterSolve u b s d t).provenance.edges = before ++ e :: after →
        u.Explains b initial (done ++ [⟨d, t, s⟩]) before e := by
  have htaken : ∀ sol ∈ done ++ [⟨d, t, s⟩], sol.demand ∈ done.map Solved.demand ++ [d] := by
    intro sol hsol
    have hmem := List.mem_map_of_mem (f := Solved.demand) hsol
    rwa [List.map_append, List.map_singleton] at hmem
  refine (Progress.afterSolve_induction (motive := fun q =>
    q.Lineage policy initial (done.map Solved.demand ++ [d]) ∧
      ∀ before e after, q.provenance.edges = before ++ e :: after →
        u.Explains b initial (done ++ [⟨d, t, s⟩]) before e)
    ⟨hlineage.collected hqueue u b s t, fun before e after hsplit =>
      (hedges before e after hsplit).append _⟩ ?_).2
  rintro q m ⟨source, x⟩ hm hx ⟨hlineage, hedges⟩
  have hmatches : u.Matches b ⟨d, t, s⟩ m := mem_matched_iff.1 hm
  exact ⟨hlineage.enqueue m.parent source x, explains_enqueue hlineage hedges htaken
    (List.mem_append_right _ List.mem_cons_self) hmatches (hparents m hmatches) hx⟩

/-- What holds between the solves of an analysis. -/
structure Grown (u : Setup) (initial : Query) (done : List (Solved Session)) (s : Session)
    (p : Progress) : Prop where
  ready : s.Ready u.program u.config.solverOptions
  tables : ∀ f t, s.forwardTable? f = some t →
    ∃ sol ∈ done, Brings (.reachability u.program) sol (.forward f)
  found : ∀ sol ∈ done, ∀ f, Finds (.reachability u.program) sol f →
    ∃ fact, Flow.allocation? u.program fact = some f
  collected : ∀ f, f ∈ p.collector.sites ↔ SiteCollector.isLiteralSite u.program f = true ∧
    ∃ sol ∈ done, Brings (.reachability u.program) sol (.forward f)
  lineage : p.Lineage u.config.visitedPolicy initial (done.map Solved.demand)
  offspring : ∀ sol ∈ done, ∀ d ∈ u.offspring (.reachability u.program) sol,
    u.config.visitedPolicy.key d ∈ p.agenda.visited
  edges : ∀ before e after, p.provenance.edges = before ++ e :: after →
    u.Explains (.reachability u.program) initial done before e

/-- What a solve matches is its own, a site's or held by its session. -/
theorem exists_brings_parent {u : Setup} {done : List (Solved Session)} {sol : Solved Session}
    (hsol : sol ∈ done) (htables : ∀ f t, sol.session.forwardTable? f = some t →
      ∃ other ∈ done, Brings (.reachability u.program) other (.forward f)) {m : Matched}
    (hm : u.Matches (.reachability u.program) sol m) :
    ∃ other ∈ done, Brings (.reachability u.program) other m.parent := by
  cases hm with
  | own => exact ⟨sol, hsol, .inl rfl⟩
  | site backward policy reported table => exact ⟨sol, hsol, .inr ⟨_, ⟨_, backward, reported⟩, rfl⟩⟩
  | active backward policy listed table => exact htables _ _ table

namespace Grown

variable {u : Setup} {initial : Query} {done : List (Solved Session)} {s : Session} {p : Progress}

theorem start (u : Setup) (initial : Query) :
    u.Grown initial [] u.opened (.start u.config.visitedPolicy initial) where
  ready := ready_opened u
  tables := fun _ _ h => nomatch h
  found := fun _ h => nomatch h
  collected := fun f =>
    ⟨fun h => (OrderedSet.not_mem_empty f h).elim, fun ⟨_, _, h, _⟩ => nomatch h⟩
  lineage := .start ..
  offspring := fun _ h => nomatch h
  edges := fun before e after h => by cases before <;> cases h

theorem afterSolve (hp : u.program.WellFormed) (h : u.Grown initial done s p) {d : Demand}
    {rest : List Demand} {t : Table} {s' : Session} (hqueue : p.agenda.queue = d :: rest)
    (hsolve : s.solve d = .ok (t, s')) : u.Grown initial (done ++ [⟨d, t, s'⟩]) s'
      ((p.popped rest).afterSolve u (.reachability u.program) s' d t) := by
  obtain ⟨hready, seeds, rfl, -⟩ := h.ready.solve hp hsolve
  have hdone : (done ++ [⟨d, t, s.after d.query seeds⟩] : List (Solved Session)).map
      Solved.demand = done.map Solved.demand ++ [d] := by
    rw [List.map_append, List.map_singleton]
  have hsol : ⟨d, t, s.after d.query seeds⟩ ∈ done ++ [⟨d, t, s.after d.query seeds⟩] :=
    List.mem_append_right _ List.mem_cons_self
  have htables : ∀ f t', (s.after d.query seeds).forwardTable? f = some t' →
      ∃ sol ∈ done ++ [⟨d, t, s.after d.query seeds⟩],
        Brings (.reachability u.program) sol (.forward f) := by
    intro f t' hf
    rcases brings_or_kept h.ready.program d seeds t hf with hnew | hkept
    · exact ⟨_, hsol, hnew⟩
    · obtain ⟨sol, hmem, hold⟩ := h.tables f t' hkept
      exact ⟨sol, List.mem_append_left _ hmem, hold⟩
  refine ⟨hready, htables, ?_, mem_sites_afterSolve h.collected rest d t _, ?_, ?_, ?_⟩
  · intro sol hmem f hfinds
    rcases List.mem_append.1 hmem with hold | hnew
    · exact h.found sol hold f hfinds
    · obtain rfl := List.mem_singleton.1 hnew
      exact exists_allocation_of_finds h.ready.program hfinds
  · rw [hdone]
    exact h.lineage.afterSolve hqueue u _ _ t
  · intro sol hmem e he
    rw [Progress.agenda_afterSolve, Agenda.mem_visited_pushAll]
    rcases List.mem_append.1 hmem with hold | hnew
    · exact .inl (h.offspring sol hold e he)
    · obtain rfl := List.mem_singleton.1 hnew
      exact .inr ⟨e, he, by rw [← h.lineage.agendaPolicy]; rfl⟩
  · exact explains_afterSolve h.lineage hqueue h.edges fun _ hm =>
      exists_brings_parent hsol htables hm

section

variable (h : u.Grown initial done s p)
include h

theorem explains_of_mem {e : ProvenanceEdge} (he : e ∈ p.provenance.edges) :
    ∃ before after, p.provenance.edges = before ++ e :: after ∧
      u.Explains (.reachability u.program) initial done before e := by
  obtain ⟨before, after, hsplit⟩ := List.append_of_mem he
  exact ⟨before, after, hsplit, h.edges before e after hsplit⟩

/-- What holds of the initial query, and of a child where it holds of all asked before, holds of
every child. -/
theorem child_induction {motive : Query → Prop} (hinitial : motive initial)
    (child : ∀ before, ∀ e ∈ p.provenance.edges,
      u.Explains (.reachability u.program) initial done before e →
        (∀ q, Asked initial before q → motive q) → motive e.child)
    {e : ProvenanceEdge} (he : e ∈ p.provenance.edges) : motive e.child := by
  obtain ⟨before, after, hsplit⟩ := List.append_of_mem he
  induction hlength : before.length using Nat.strong_induction_on generalizing before e after with
  | _ n ih =>
    refine child before e he (h.edges before e after hsplit) fun q hq => ?_
    rcases hq with rfl | hchild
    · exact hinitial
    · obtain ⟨edge, hedge, rfl⟩ := List.mem_map.1 hchild
      obtain ⟨first, between, rfl⟩ := List.append_of_mem hedge
      have hshorter : first.length < n := by
        rw [← hlength, List.length_append, List.length_cons]
        omega
      have hagain : p.provenance.edges = first ++ edge :: (between ++ e :: after) := by
        rw [hsplit, List.append_assoc, List.cons_append]
      exact ih _ hshorter (hagain ▸ List.mem_append_right _ List.mem_cons_self) _ _ hagain rfl

/-- What is solved is the initial query or a child. -/
theorem asked {sol : Solved Session} (hsol : sol ∈ done) :
    Asked initial p.provenance.edges sol.demand.query :=
  asked_of_taken h.lineage (List.mem_map_of_mem hsol)

end

end Grown

/-- What holds of the session that an analysis opens and is kept by its solves holds at the end. -/
theorem analyze_invariant {u : Setup} {initial : Query} {report : Report}
    {motive : List (Solved Session) → Session → Progress → Prop}
    (hrun : (u.analyze initial).result = .ok report)
    (start : motive [] u.opened (.start u.config.visitedPolicy initial))
    (step : ∀ done s p d rest t s', p.agenda.queue = d :: rest → s.solve d = .ok (t, s') →
      motive done s p → motive (done ++ [⟨d, t, s'⟩]) s'
        ((p.popped rest).afterSolve u (.reachability u.program) s' d t)) :
    ∃ s p, motive (u.analyze initial).solved s p ∧ p.Ends u.config report := by
  obtain ⟨calls, -, htrace⟩ := trace_analyze (validate_of_analyze hrun) initial
  exact htrace.invariant (motive := motive)
    (fun done s p d rest t s' queue _ solves => step done s p d rest t s' queue solves) start hrun

/-- An analysis that ends with a report ends in a state of this kind. -/
theorem exists_grown {u : Setup} (hp : u.program.WellFormed) {initial : Query} {report : Report}
    (hrun : (u.analyze initial).result = .ok report) :
    ∃ s p, u.Grown initial (u.analyze initial).solved s p ∧ p.Ends u.config report :=
  analyze_invariant hrun (.start u initial) fun _ _ _ _ _ _ _ queue solves h =>
    h.afterSolve hp queue solves

end Setup

end GuidedDataflow
