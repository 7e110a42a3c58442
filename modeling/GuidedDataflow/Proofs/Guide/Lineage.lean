import GuidedDataflow.Proofs.Guide.Recording
import GuidedDataflow.Proofs.Guide.Rescan

/-!
What a run records of where its queries come from. Each spawned query that is accepted gets an
edge of its own, for had it and its parent been joined before, its key would have been seen. So
the demands taken off the agenda so far, followed by those that wait, are the initial one and
then the demands of the edges, in the order of their recording.
-/

namespace GuidedDataflow

variable {σ : Type}

/-- The demand that the edge records. -/
def ProvenanceEdge.demand (e : ProvenanceEdge) : Demand := .within e.child e.trigger e.parent

namespace Progress

variable {p : Progress} {u : Setup} {b : Backend σ} {s : σ} {d : Demand} {t : Table}

/-- What holds once a solve is counted and is kept by each query that its tables spawn, holds
after the solve. -/
theorem afterSolve_induction {motive : Progress → Prop}
    (collected : motive (p.collected u b s d t))
    (enqueue : ∀ q m x, m ∈ u.matched b s d.query t → x ∈ u.spawns m → motive q →
      motive (q.enqueue m.parent x.1 x.2)) : motive (p.afterSolve u b s d t) := by
  have habsorb : ∀ m ∈ u.matched b s d.query t, ∀ q, motive q → motive (q.absorb u m) := by
    intro m hm
    have hspawns : ∀ spawns : List (SpawnSource × Spawn), (∀ x ∈ spawns, x ∈ u.spawns m) →
        ∀ q, motive q → motive (spawns.foldl (fun p x => p.enqueue m.parent x.1 x.2) q) := by
      intro spawns
      induction spawns with
      | nil => exact fun _ _ hq => hq
      | cons x spawns ih =>
        intro hall q hq
        obtain ⟨hx, hlater⟩ := List.forall_mem_cons.1 hall
        exact ih hlater _ (enqueue q m x hm hx hq)
    exact hspawns _ fun _ hx => hx
  have hmatched : ∀ ms : List Matched, (∀ m ∈ ms, m ∈ u.matched b s d.query t) →
      ∀ q, motive q → motive (ms.foldl (·.absorb u ·) q) := by
    intro ms
    induction ms with
    | nil => exact fun _ _ hq => hq
    | cons m ms ih =>
      intro hall q hq
      obtain ⟨hm, hlater⟩ := List.forall_mem_cons.1 hall
      exact ih hlater _ (habsorb m hm q hq)
  exact hmatched _ (fun _ hm => hm) _ collected

/-- The progress ends a run with the report: its agenda is empty, or the query cap leaves what
waits unsolved. -/
def Ends (p : Progress) (c : Config) (report : Report) : Prop :=
  (p.agenda.queue = [] ∧ report = p.report) ∨
    (p.agenda.queue ≠ [] ∧ p.capReached c = true ∧ report = p.skipRest.report)

end Progress

/-- What holds at the start and is kept by each solve holds at the end of a run with a report. -/
theorem Setup.Trace.invariant {u : Setup} {b : Backend σ}
    {motive : List (Solved σ) → σ → Progress → Prop}
    (step : ∀ done s p d rest t s', p.agenda.queue = d :: rest → p.capReached u.config = false →
      b.solve s d = .ok (t, s') → motive done s p →
        motive (done ++ [⟨d, t, s'⟩]) s' ((p.popped rest).afterSolve u b s' d t))
    {fuel : Nat} {s : σ} {p : Progress} {solved done : List (Solved σ)} {calls : List BackendCall}
    {result : Except RunError Report} (h : u.Trace b fuel s p solved calls result)
    (start : motive done s p) {report : Report} (hresult : result = .ok report) :
    ∃ s' p', motive (done ++ solved) s' p' ∧ p'.Ends u.config report := by
  induction h generalizing done with
  | @done _ s p queue =>
    cases hresult
    exact ⟨s, p, (List.append_nil done).symm ▸ start, .inl ⟨queue, rfl⟩⟩
  | @capped _ s p d rest queue cap =>
    cases hresult
    have hwaits : p.agenda.queue ≠ [] := queue ▸ List.cons_ne_nil d rest
    exact ⟨s, p, (List.append_nil done).symm ▸ start, .inr ⟨hwaits, cap, rfl⟩⟩
  | exhausted => cases hresult
  | failed => cases hresult
  | @solved _ s s' p d rest t later _ _ queue cap solves _ ih =>
    obtain ⟨s'', p', hend, hends⟩ := ih (step done s p d rest t s' queue cap solves start) hresult
    rw [List.append_assoc] at hend
    exact ⟨s'', p', hend, hends⟩

/-- The demands taken off the agenda so far and those that wait are the initial one and those
that the edges record, and their keys are those that have been seen. -/
structure Progress.Lineage (p : Progress) (policy : VisitedPolicy) (initial : Query)
    (taken : List Demand) : Prop where
  agendaPolicy : p.agenda.policy = policy
  accepted : taken ++ p.agenda.queue =
    .topLevel initial :: p.provenance.edges.map ProvenanceEdge.demand
  visited : p.agenda.visited.reverse = (taken ++ p.agenda.queue).map policy.key
  nodup : p.agenda.visited.Nodup
  queries : ∀ q, q ∈ p.provenance.queries ↔
    q = initial ∨ ∃ e ∈ p.provenance.edges, q = e.parent ∨ q = e.child

namespace Progress.Lineage

variable {p : Progress} {u : Setup} {b : Backend σ} {s : σ} {d : Demand} {t : Table}
  {policy : VisitedPolicy} {initial : Query} {taken : List Demand}

theorem start (policy : VisitedPolicy) (initial : Query) :
    (Progress.start policy initial).Lineage policy initial [] := by
  refine ⟨rfl, rfl, rfl, List.nodup_singleton _, fun q => ?_⟩
  show q ∈ [initial] ↔ _
  rw [List.mem_singleton]
  exact ⟨.inl, fun h => h.elim id fun ⟨_, he, _⟩ => (List.not_mem_nil he).elim⟩

/-- An accepted child is not yet joined to its parent. -/
theorem not_joined (h : p.Lineage policy initial taken) {parent : Query} {spawn : Spawn}
    (haccepts : p.agenda.accepts (.within spawn.query spawn.trigger parent) = true) :
    ∀ e ∈ p.provenance.edges, ¬ (e.parent = parent ∧ e.child = spawn.query) := by
  rintro e he ⟨rfl, hchild⟩
  have hkey : policy.key e.demand = policy.key (.within spawn.query spawn.trigger e.parent) := by
    rw [ProvenanceEdge.demand, hchild]
    cases policy <;> rfl
  have hseen : policy.key e.demand ∈ p.agenda.visited.reverse := by
    rw [h.visited, h.accepted]
    exact List.mem_map_of_mem (List.mem_cons_of_mem _ (List.mem_map_of_mem he))
  rw [Agenda.accepts_iff, h.agendaPolicy, ← hkey] at haccepts
  exact haccepts (List.mem_reverse.1 hseen)

theorem provenance_enqueue (h : p.Lineage policy initial taken) {parent : Query}
    (source : SpawnSource) {spawn : Spawn}
    (haccepts : p.agenda.accepts (.within spawn.query spawn.trigger parent) = true) :
    (p.enqueue parent source spawn).provenance.edges =
      p.provenance.edges ++ [⟨parent, spawn.query, spawn.trigger⟩] := by
  simp only [Progress.enqueue, haccepts, if_true]
  exact Provenance.edges_addEdge_of_new _ (h.not_joined haccepts)

theorem enqueue (h : p.Lineage policy initial taken) (parent : Query) (source : SpawnSource)
    (spawn : Spawn) : (p.enqueue parent source spawn).Lineage policy initial taken := by
  have hagenda := p.agenda_enqueue parent source spawn
  cases haccepts : p.agenda.accepts (.within spawn.query spawn.trigger parent) with
  | true =>
    have hedges := h.provenance_enqueue source haccepts
    rw [Agenda.push_of_accepts haccepts] at hagenda
    refine ⟨by rw [hagenda, h.agendaPolicy], ?_, ?_, ?_, fun q => ?_⟩
    · rw [hagenda, hedges, List.map_append, ← List.append_assoc, h.accepted]
      rfl
    · rw [hagenda, List.reverse_cons, h.visited, h.agendaPolicy]
      simp only [List.map_append, List.append_assoc, List.map_cons, List.map_nil]
    · rw [hagenda]
      exact List.nodup_cons.2 ⟨(Agenda.accepts_iff _ _).1 haccepts, h.nodup⟩
    · have hqueries : q ∈ (p.enqueue parent source spawn).provenance.queries ↔
          q ∈ p.provenance.queries ∨ q = parent ∨ q = spawn.query := by
        simp only [Progress.enqueue, haccepts, if_true]
        exact Provenance.mem_queries_addEdge ..
      rw [hqueries, h.queries, hedges]
      simp only [List.mem_append, List.mem_singleton, or_and_right, exists_or, exists_eq_left,
        or_assoc]
  | false =>
    rw [Agenda.push_of_seen haccepts] at hagenda
    have hprovenance : (p.enqueue parent source spawn).provenance = p.provenance := by
      simp only [Progress.enqueue, haccepts, Bool.false_eq_true, if_false]
    refine ⟨?_, ?_, ?_, ?_, ?_⟩
    · rw [hagenda]
      exact h.agendaPolicy
    · rw [hagenda, hprovenance]
      exact h.accepted
    · rw [hagenda]
      exact h.visited
    · rw [hagenda]
      exact h.nodup
    · rw [hprovenance]
      exact h.queries

/-- Counting a solve moves its demand to those that have been taken. -/
theorem collected {rest : List Demand} (h : p.Lineage policy initial taken)
    (hqueue : p.agenda.queue = d :: rest) (u : Setup) (b : Backend σ) (s : σ) (t : Table) :
    ((p.popped rest).collected u b s d t).Lineage policy initial (taken ++ [d]) := by
  have htaken : (taken ++ [d]) ++ rest = taken ++ p.agenda.queue := by
    rw [hqueue, List.append_assoc, List.singleton_append]
  refine ⟨h.agendaPolicy, ?_, ?_, h.nodup, h.queries⟩
  · exact htaken.trans h.accepted
  · exact h.visited.trans (congrArg _ htaken.symm)

theorem afterSolve {rest : List Demand} (h : p.Lineage policy initial taken)
    (hqueue : p.agenda.queue = d :: rest) (u : Setup) (b : Backend σ) (s : σ) (t : Table) :
    ((p.popped rest).afterSolve u b s d t).Lineage policy initial (taken ++ [d]) :=
  afterSolve_induction (motive := fun q => q.Lineage policy initial (taken ++ [d]))
    (h.collected hqueue u b s t) fun _ m x _ _ hq => hq.enqueue m.parent x.1 x.2

end Progress.Lineage

end GuidedDataflow
