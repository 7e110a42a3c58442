import Mathlib.Data.List.ProdSigma
import GuidedDataflow.Proofs.Guide.Completeness
import GuidedDataflow.Proofs.Matching.Spawnable
import GuidedDataflow.Proofs.Solver.LeastSolve
import GuidedDataflow.Proofs.Solver.Scope

/-!
An analysis keeps to the contract of scoped solves. Whatever waits on its agenda names a parent
that has been solved and a trigger that the parent reached, so only the initial query can be
refused, for an edge that the program does not have. The keys on the agenda are few enough for
the bound on solves never to be used up.
-/

namespace GuidedDataflow

open Session

/-- The allocation site on an edge, if the statement that it leaves makes an allocation. -/
def siteOn? (p : Program) (e : Edge) : Option ForwardQuery :=
  match (p.statement? e.start).map Statement.action with
  | some (.assign target _) => Flow.allocation? p ⟨e, target, .empty⟩
  | _ => none

theorem siteOn?_of_allocation? {p : Program} {f : Fact} {site : ForwardQuery}
    (h : Flow.allocation? p f = some site) : siteOn? p site.edge = some site := by
  obtain ⟨s, source, hs, ha, halloc, rfl⟩ := Flow.allocation?_eq_some.1 h
  unfold siteOn?
  simp only [hs, Option.map_some, ha]
  exact Flow.allocation?_eq_some.2 ⟨s, source, hs, ha, halloc, rfl⟩

namespace Setup

variable (u : Setup) (initial : Query)

/-- The queries that an analysis can put on its agenda. -/
def queries : List Query := initial :: spawnable u.program

def sites : List ForwardQuery := (initial.edge :: u.program.edges).filterMap (siteOn? u.program)

/-- The queries that can spawn others. -/
def parents : List Query := u.queries initial ++ (u.sites initial).map .forward

def keys : List DemandKey :=
  (u.queries initial ×ˢ (none :: (u.parents initial).map some)).map fun k => ⟨k.1, k.2⟩

/-- The bound on the solves of an analysis. -/
def bound : Nat := solveBound u.program (u.program.edges.length + 1)

theorem length_keys_le : (u.keys initial).length ≤ u.bound := by
  have hsites : (u.sites initial).length ≤ u.program.edges.length + 1 := by
    unfold sites
    exact List.length_filterMap_le _ _
  simp only [keys, bound, solveBound, parents, queries, List.length_map, List.length_product,
    List.length_cons, List.length_append]
  exact Nat.mul_le_mul_left _ (by omega)

variable {u initial}

theorem key_mem_keys {query parent : Query} (hq : query ∈ u.queries initial)
    (hparent : parent ∈ u.parents initial) (trigger : Cell) :
    u.config.visitedPolicy.key (.within query trigger parent) ∈ u.keys initial := by
  refine List.mem_map.2 ?_
  cases u.config.visitedPolicy with
  | queryIdentity => exact ⟨(query, none), List.mem_product.2 ⟨hq, List.mem_cons_self⟩, rfl⟩
  | queryInScope =>
    exact ⟨(query, some parent), List.mem_product.2
      ⟨hq, List.mem_cons_of_mem _ (List.mem_map_of_mem hparent)⟩, rfl⟩

theorem edge_of_mem_queries (hp : u.program.WellFormed) {q : Query} (h : q ∈ u.queries initial) :
    q.edge ∈ initial.edge :: u.program.edges := by
  rcases List.mem_cons.1 h with rfl | h
  · exact List.mem_cons_self
  · exact List.mem_cons_of_mem _ (edge_of_mem_spawnable hp h)

variable (u initial) in
/-- What holds between the solves of an analysis that may still make so many solves. -/
structure Sound (fuel : Nat) (s : Session) (p : Progress) : Prop where
  ready : s.Ready u.program u.config.solverOptions
  tables : ∀ f t, s.forwardTable? f = some t → .forward f ∈ u.parents initial
  policy : p.agenda.policy = u.config.visitedPolicy
  queued : ∀ d ∈ p.agenda.queue, d.query ∈ u.queries initial ∧ s.Resolves d
  nodup : p.agenda.visited.Nodup
  visited : ∀ k ∈ p.agenda.visited, k ∈ u.keys initial
  room : u.bound + p.agenda.queue.length ≤ fuel + p.agenda.visited.length

theorem Sound.fits {fuel : Nat} {s : Session} {p : Progress} (h : u.Sound initial fuel s p) :
    p.agenda.Fits (u.keys initial) u.bound fuel :=
  ⟨h.nodup, h.visited, h.room⟩

/-- After a solve the session holds forward tables of queries and of sites only. -/
theorem tables_after {s : Session} (hs : s.Ready u.program u.config.solverOptions)
    (hp : u.program.WellFormed)
    (htables : ∀ f t, s.forwardTable? f = some t → .forward f ∈ u.parents initial) {q : Query}
    (hq : q ∈ u.queries initial) (seeds : Seeds) (f : ForwardQuery) (t : Table)
    (h : (s.after q seeds).forwardTable? f = some t) : .forward f ∈ u.parents initial := by
  cases q with
  | forward q =>
    simp only [after, forwardTable?_recordForward] at h
    split at h
    · next heq => exact List.mem_append_left _ (heq ▸ hq)
    · exact htables f t h
  | backward b =>
    rw [forwardTable?_after_backward] at h
    split at h
    · next hsite =>
      refine List.mem_append_right _ (List.mem_map_of_mem ?_)
      have hedge : f.edge ∈ b.edge :: u.program.edges :=
        hs.program ▸ site_edge (hs.program ▸ hp) hsite
      have hmem : f.edge ∈ initial.edge :: u.program.edges := by
        rcases List.mem_cons.1 hedge with heq | hmem
        · exact heq ▸ edge_of_mem_queries hp hq
        · exact List.mem_cons_of_mem _ hmem
      obtain ⟨context, hcontext⟩ := BackwardRun.mem_sites.1 hsite
      obtain ⟨fact, -, hfound, -⟩ := mem_contextsOf_exploreBackward.1 hcontext
      rw [hs.program] at hfound
      exact List.mem_filterMap.2 ⟨f.edge, hmem, siteOn?_of_allocation? hfound⟩
    · exact htables f t h

/-- A demand that a solve gives rise to asks a spawnable query, for a parent that has just been
solved or has a forward table, at a cell that this parent has reached. -/
theorem of_mem_demands {s : Session} (hs : s.Ready u.program u.config.solverOptions)
    (hp : u.program.WellFormed) {q : Query} (hq : q ∈ u.queries initial) {seeds : Seeds}
    (htables : ∀ f t, (s.after q seeds).forwardTable? f = some t →
      .forward f ∈ u.parents initial) {d : Demand}
    (h : d ∈ u.demands (.reachability u.program) (s.after q seeds) q (s.storeOf q seeds).table) :
    d.query ∈ u.queries initial ∧ (s.after q seeds).Resolves d ∧
      u.config.visitedPolicy.key d ∈ u.keys initial := by
  obtain ⟨m, hm, hd⟩ := List.mem_flatMap.1 h
  obtain ⟨x, hx, rfl⟩ := List.mem_map.1 hd
  obtain ⟨hspawnable, htrigger⟩ := of_mem_spawns hp hx
  have hquery : x.2.query ∈ u.queries initial := List.mem_cons_of_mem _ hspawnable
  have hcoh : (s.after q seeds).Coherent := hs.coherent.after q seeds
  obtain ⟨hparent, origin, hkept, htable⟩ : m.parent ∈ u.parents initial ∧
      ∃ origin, (s.after q seeds).Kept m.parent origin ∧
        m.table = ((s.after q seeds).storeOf m.parent origin).table := by
    rcases matched_cases hm with rfl | ⟨f, hf, htable⟩
    · exact ⟨List.mem_append_left _ hq, seeds, kept_after_self s q seeds,
        by rw [storeOf_after]⟩
    · rw [hf]
      exact ⟨htables f _ htable, hcoh.kept_of_forwardTable? htable⟩
  refine ⟨hquery, ⟨?_, fun scope hscope => ?_⟩, key_mem_keys hquery hparent _⟩
  · rw [after_program, hs.program]
    exact hp.ends_of_mem_edges (edge_of_mem_spawnable hp hspawnable)
  · cases hscope
    exact ⟨origin, hkept, htable ▸ htrigger⟩

theorem Sound.solved {fuel : Nat} {s s' : Session} {p : Progress} {d : Demand}
    {rest : List Demand} {t : Table} (h : u.Sound initial (fuel + 1) s p)
    (hp : u.program.WellFormed) (hqueue : p.agenda.queue = d :: rest)
    (hsolve : s.solve d = .ok (t, s')) :
    u.Sound initial fuel s'
      ((p.popped rest).afterSolve u (.reachability u.program) s' d t) := by
  obtain ⟨hready, seeds, rfl, rfl⟩ := h.ready.solve hp hsolve
  obtain ⟨hquery, -⟩ := h.queued d (hqueue ▸ List.mem_cons_self)
  have htables := tables_after h.ready hp h.tables hquery seeds
  have hdemands := fun e => of_mem_demands (d := e) h.ready hp hquery htables
  have hkeys : ∀ e ∈ u.demands (.reachability u.program) (s.after d.query seeds) d.query
      (s.storeOf d.query seeds).table, p.agenda.policy.key e ∈ u.keys initial := by
    intro e he
    rw [h.policy]
    exact (hdemands e he).2.2
  have hfits : ((p.popped rest).afterSolve u (.reachability u.program) (s.after d.query seeds) d
      (s.storeOf d.query seeds).table).agenda.Fits (u.keys initial) u.bound fuel := by
    rw [Progress.agenda_afterSolve]
    exact h.fits.pushAll hqueue hkeys
  refine ⟨hready, htables, ?_, fun e he => ?_, hfits.nodup, hfits.visited, hfits.room⟩
  · rw [Progress.agenda_afterSolve, Agenda.policy_pushAll]
    exact h.policy
  · rw [Progress.agenda_afterSolve] at he
    rcases Agenda.mem_queue_pushAll he with hold | hnew
    · obtain ⟨hq, hresolves⟩ := h.queued e (hqueue ▸ List.mem_cons_of_mem d hold)
      exact ⟨hq, hresolves.after d.query seeds⟩
    · exact ⟨(hdemands e hnew).1, (hdemands e hnew).2.1⟩

theorem sound_start (hknows : u.program.Knows initial.edge) :
    u.Sound initial u.bound u.opened (.start u.config.visitedPolicy initial) := by
  have hagenda : (Progress.start u.config.visitedPolicy initial).agenda =
      ⟨u.config.visitedPolicy, [.topLevel initial],
        [u.config.visitedPolicy.key (.topLevel initial)], 0⟩ := rfl
  have hkey : u.config.visitedPolicy.key (.topLevel initial) = ⟨initial, none⟩ := by
    cases u.config.visitedPolicy <;> rfl
  refine ⟨ready_opened u, fun f t h => (nomatch h), rfl, ?_, ?_, ?_, ?_⟩
  · intro d hd
    rw [hagenda, List.mem_singleton] at hd
    subst hd
    exact ⟨List.mem_cons_self, hknows, fun scope hscope => (nomatch hscope)⟩
  · rw [hagenda]
    exact List.nodup_singleton _
  · intro k hk
    rw [hagenda, List.mem_singleton, hkey] at hk
    subst hk
    exact List.mem_map.2
      ⟨(initial, none), List.mem_product.2 ⟨List.mem_cons_self, List.mem_cons_self⟩, rfl⟩
  · rw [hagenda]
    exact Nat.le_refl _

/-- From a sound state an analysis ends with a report. -/
theorem Trace.reports {fuel : Nat} {s : Session} {p : Progress} {solved : List (Solved Session)}
    {calls : List BackendCall} {result : Except RunError Report}
    (h : u.Trace (.reachability u.program) fuel s p solved calls result)
    (hp : u.program.WellFormed) (hsound : u.Sound initial fuel s p) :
    ∃ report, result = .ok report := by
  induction h with
  | done => exact ⟨_, rfl⟩
  | capped => exact ⟨_, rfl⟩
  | @exhausted s p d rest queue cap =>
    -- all keys have been seen, yet one more demand waits
    have hnone := hsound.fits.queue_length_le (length_keys_le u initial)
    rw [queue] at hnone
    cases hnone
  | @failed _ s p d rest e queue cap fails =>
    obtain ⟨-, hresolves⟩ := hsound.queued d (queue ▸ List.mem_cons_self)
    obtain ⟨r, hr⟩ := hresolves.solve (hsound.ready.program ▸ hp) hsound.ready.coherent
      hsound.ready.isOpen
    have hfails : s.solve d = .error e := fails
    rw [hr] at hfails
    cases hfails
  | solved queue _ solves _ ih => exact ih (hsound.solved hp queue solves)

/-- Where the initial query is refused nothing else is asked. -/
theorem Trace.refused {σ : Type} {b : Backend σ} {s : σ} {e : SolveError}
    (hrefused : b.solve s (.topLevel initial) = .error e) (fuel : Nat) (policy : VisitedPolicy) :
    u.Trace b (fuel + 1) s (.start policy initial) [] [.solve (.topLevel initial)]
      (.error (.solver e)) := by
  have hcap : (Progress.start policy initial).capReached u.config = false := by
    have hnone : (Progress.start policy initial).statistics.totalSolved = 0 := rfl
    unfold Progress.capReached
    rw [hnone, Bool.and_eq_false_iff]
    simp only [decide_eq_false_iff_not]
    omega
  exact .failed rfl hcap hrefused

end Setup

/-- The statement is the first end of the edge, start before target, that the program lacks. -/
def Program.Lacks (p : Program) (e : Edge) (id : StmtId) : Prop :=
  p.statement? id = none ∧ (id = e.start ∨ (id = e.target ∧ ∃ s, p.statement? e.start = some s))

theorem Program.knows_or_lacks (p : Program) (e : Edge) : p.Knows e ∨ ∃ id, p.Lacks e id := by
  cases hstart : p.statement? e.start with
  | none => exact .inr ⟨e.start, hstart, .inl rfl⟩
  | some s =>
    cases htarget : p.statement? e.target with
    | none => exact .inr ⟨e.target, htarget, .inr ⟨rfl, s, hstart⟩⟩
    | some t => exact .inl ⟨⟨s, hstart⟩, t, htarget⟩

theorem Program.Knows.not_lacks {p : Program} {e : Edge} (h : p.Knows e) (id : StmtId) :
    ¬ p.Lacks e id := by
  obtain ⟨⟨s, hstart⟩, t, htarget⟩ := h
  rintro ⟨hnone, rfl | ⟨rfl, -⟩⟩
  · rw [hstart] at hnone
    cases hnone
  · rw [htarget] at hnone
    cases hnone

theorem Session.checkEdge_of_lacks {s : Session} {e : Edge} {id : StmtId}
    (h : s.program.Lacks e id) : s.checkEdge e = .error (.unknownStatement id) := by
  unfold checkEdge
  obtain ⟨hnone, rfl | ⟨rfl, t, hstart⟩⟩ := h
  · simp only [hnone, Option.isNone_none, if_true]
  · simp only [hstart, hnone, Option.isNone_some, Option.isNone_none, Bool.false_eq_true, if_false,
      if_true]

namespace Setup

variable {u : Setup} {initial : Query}

theorem refused_of_lacks {id : StmtId} (h : u.program.Lacks initial.edge id) :
    u.opened.solve (.topLevel initial) = .error (.unknownStatement id) := by
  rw [solve_topLevel rfl]
  refine solveFrom_error initial _ ?_
  rw [(ensureOpen_eq_ok u.opened).2 rfl, checkEdge_of_lacks h]
  rfl

theorem analyze_of_lacks (hv : u.config.validate = .ok ()) {id : StmtId}
    (h : u.program.Lacks initial.edge id) : u.analyze initial =
      ⟨[.start u.config.solverOptions, .solve (.topLevel initial), .close], [],
        .error (.solver (.unknownStatement id))⟩ := by
  have hrefused : (Backend.reachability u.program).solve u.opened (.topLevel initial) =
      .error (.unknownStatement id) := refused_of_lacks h
  obtain ⟨fuel, hfuel⟩ : ∃ fuel,
      solveBound u.program (Backend.reachability u.program).siteBound = fuel + 1 :=
    Nat.exists_eq_add_one_of_ne_zero (by simp [solveBound])
  have htrace := Trace.refused (u := u) hrefused fuel u.config.visitedPolicy
  rw [← hfuel] at htrace
  exact htrace.run_eq hv (start_opened hv)

theorem result_of_lacks (hv : u.config.validate = .ok ()) {id : StmtId}
    (h : u.program.Lacks initial.edge id) :
    (u.analyze initial).result = .error (.solver (.unknownStatement id)) := by
  rw [analyze_of_lacks hv h]

/-- The result of a relayed call leads on to the call's argument. -/
def relaySetup : Setup :=
  ⟨relayProgram, .ofGroups [((RuleGroup.ofSignature ⟨"<M: Object relay(Object)>"⟩).addOn
    ⟨.backward, .result⟩).addGo ⟨.backward, .positional 0⟩], .standard⟩

end Setup

end GuidedDataflow
