import GuidedDataflow.Proofs.Flow.Converse
import GuidedDataflow.Proofs.Solver.LeastSolve
import GuidedDataflow.Proofs.Solver.Tables

/-!
Forward and backward solves at top level. In a regular program the forward table of an
allocation holds a cell exactly where the backward solve of that cell finds the allocation.
-/

namespace GuidedDataflow

open Std

namespace Flow

variable {p : Program} {k : Nat} {f : Fact}

/-- The facts reached from a proper cell under an unknown caller are the runs of the graph. -/
theorem mem_reached_iff (hp : p.WellFormed) (hr : p.Regular) (d : Direction) {c : Cell}
    (hc : c.Proper p) : f ∈ reached (step p k d) [Fact.ofCell c .empty] ↔
      Relation.ReflTransGen ((p.graph d).Step k) (c, .empty) (f.cell, f.context) := by
  have hseed : (Fact.ofCell c .empty).Grounded p := ⟨hc, fun s _ => .empty _⟩
  have hrun : ∀ s, Relation.ReflTransGen ((p.graph d).Step k) (c, .empty) s →
      (Fact.ofCell s.1 s.2) ∈ reached (step p k d) [Fact.ofCell c .empty] ∧
        (Fact.ofCell s.1 s.2).Grounded p := by
    intro s h
    induction h with
    | refl => exact ⟨Reaches.seed List.mem_cons_self, hseed⟩
    | tail _ hs ih =>
      obtain ⟨hreached, hgrounded⟩ := ih
      exact ⟨Reaches.step hreached ((mem_step_iff hp hr d hgrounded).2 hs),
        grounded_step hr d hgrounded hs⟩
  constructor
  · intro h
    induction h with
    | seed hf =>
      rw [List.mem_singleton.1 hf]
      exact .refl
    | step _ hg ih => exact ih.tail ((mem_step_iff hp hr d (hrun _ ih).2).1 hg)
  · exact fun h => (hrun _ h).1

/-- A cell is reached from another one forward exactly if backward it leads there. -/
theorem reached_converse (hp : p.WellFormed) (hr : p.Regular) {a b : Cell} (ha : a.Proper p)
    (hb : b.Proper p) :
    (∃ c, Fact.ofCell b c ∈ reached (step p k .forward) [Fact.ofCell a .empty]) ↔
      ∃ c, Fact.ofCell a c ∈ reached (step p k .backward) [Fact.ofCell b .empty] := by
  simp only [mem_reached_iff hp hr _ ha, mem_reached_iff hp hr _ hb]
  exact (CallGraph.run_converse_iff (G := p.flowGraph) (a := a) (b := b)).symm

end Flow

namespace Session

variable {s : Session}

/-- What a complete solve at top level holds. -/
theorem mem_table_iff (hp : s.program.WellFormed) (q : Query)
    (hc : (s.storeOf q (.singleton .empty)).complete = true) (c : Cell) :
    c ∈ (s.storeOf q (.singleton .empty)).table ↔ ∃ context, Fact.ofCell c context ∈
      q.facts s.program s.options.maxCallDepth (.singleton .empty) := by
  constructor
  · intro h
    obtain ⟨f, hf, rfl⟩ := exists_reached_of_mem_table hp h
    exact ⟨f.context, hf⟩
  · rintro ⟨context, hf⟩
    exact mem_table_of_reached hp hc hf

/-- An allocation is found by a complete backward solve where the value that it assigns is
reached on an edge out of the assignment. -/
theorem mem_sites_iff (hp : s.program.WellFormed) (q : BackwardQuery)
    (hc : (s.storeOf (.backward q) (.singleton .empty)).complete = true) {e : Edge} {t : Statement}
    {x a : Value} (ht : s.program.statement? e.start = some t) (ha : t.action = .assign x a)
    (halloc : a.isAllocation = true) :
    (∃ context, context ∈
        (s.exploreBackward q (.singleton .empty)).contextsOf ⟨e, ⟨x, e.start, a⟩⟩) ↔
      ∃ context, Fact.ofCell ⟨e, x⟩ context ∈
        (Query.backward q).facts s.program s.options.maxCallDepth (.singleton .empty) := by
  rw [← mem_allocationSites_after]
  constructor
  · intro h
    obtain ⟨f, hf, hsite⟩ := exists_reached_of_mem_sites hp h
    obtain ⟨_, _, -, -, -, heq⟩ := Flow.allocation?_eq_some.1 hsite
    cases heq
    exact ⟨f.context, hf⟩
  · rintro ⟨context, hf⟩
    exact mem_sites_of_reached hp hc hf (Flow.allocation?_eq_some.2 ⟨t, a, ht, ha, halloc, rfl⟩)

/-- Forward and backward solving are dual: both solves succeed, and where both are complete
the allocation's table holds the cell exactly if the cell's solve reports the allocation. -/
theorem solve_forward_iff_backward {parts : List (Signature × List Instruction)} {p : Program}
    {o₁ o₂ : SolverOptions} {s₁ s₂ : Session} (hp : Program.build parts = .ok p) (hr : p.Regular)
    (hdepth : o₁.maxCallDepth = o₂.maxCallDepth) (hs₁ : Reached p o₁ s₁) (hs₂ : Reached p o₂ s₂)
    (hopen₁ : s₁.closed = false) (hopen₂ : s₂.closed = false) {s₀ : StmtId} {t : Statement}
    {x a : Value} (ht : p.statement? s₀ = some t) (ha : t.action = .assign x a)
    (halloc : a.isAllocation = true) {e₀ e : Edge} (he₀ : e₀ ∈ p.succEdges s₀) (he : e ∈ p.edges)
    {v : Value} (hv : v.isLocal = true) :
    ∃ t₁ s₁' t₂ s₂', s₁.solve (.topLevel (.forward ⟨e₀, ⟨x, s₀, a⟩⟩)) = .ok (t₁, s₁') ∧
      s₂.solve (.topLevel (.backward ⟨e, v⟩)) = .ok (t₂, s₂') ∧
      (t₁.complete = true → t₂.complete = true →
        (⟨e, v⟩ ∈ t₁ ↔ ⟨e₀, ⟨x, s₀, a⟩⟩ ∈ (s₂'.allocationSites ⟨e, v⟩).map Prod.fst)) := by
  have hwf := Program.wellFormed_of_build hp
  obtain ⟨rfl, rfl, hcoh₁⟩ := hs₁.program_options hwf
  obtain ⟨hprogram, rfl, hcoh₂⟩ := hs₂.program_options hwf
  obtain ⟨hmem₀, rfl⟩ := hwf.mem_succEdges_iff.1 he₀
  have hlocal : x.isLocal = true := hr.isLocal_of_assigned ht (by simp [Statement.assigned?, ha])
  have hsolve₁ := solveFrom_eq hwf hcoh₁ hopen₁ (.forward ⟨e₀, ⟨x, e₀.start, a⟩⟩)
    (hwf.ends_of_mem_edges hmem₀) (.singleton .empty)
  rw [← hprogram] at hwf hr he hmem₀ ht
  have hsolve₂ := solveFrom_eq hwf hcoh₂ hopen₂ (.backward ⟨e, v⟩) (hwf.ends_of_mem_edges he)
    (.singleton .empty)
  refine ⟨_, _, _, _, (solve_topLevel hopen₁ _).trans hsolve₁,
    (solve_topLevel hopen₂ _).trans hsolve₂, fun hc₁ hc₂ => ?_⟩
  rw [mem_allocationSites_after, mem_sites_iff hwf _ hc₂ ht ha halloc,
    mem_table_iff (hprogram ▸ hwf) _ hc₁, hdepth, ← hprogram]
  exact Flow.reached_converse hwf hr ⟨hmem₀, hlocal⟩ ⟨he, hv⟩

theorem relay_regular : relayProgram.Regular where
  same_method := by decide
  not_return := by decide
  assigns_local := by decide

/-- The constant's table holds the result of the call, whose solve reports the constant. -/
theorem solve_forward_iff_backward_relay :
    ∃ t₁ s₁' t₂ s₂', relaySession.solve (.topLevel (.forward relaySite)) = .ok (t₁, s₁') ∧
      relaySession.solve (.topLevel (.backward relayResult)) = .ok (t₂, s₂') ∧
      t₁.complete = true ∧ t₂.complete = true ∧ ⟨relayResult.edge, relayResult.value⟩ ∈ t₁ ∧
      relaySite ∈ (s₂'.allocationSites relayResult).map Prod.fst := by
  have hstart : Reached relayProgram .standard relaySession := .start rfl
  have hwf := Program.wellFormed_of_build build_relayParts
  obtain ⟨-, -, hcoh⟩ := hstart.program_options hwf
  have hassign : relayProgram.statement? ⟨0⟩ =
      some ⟨⟨0⟩, ⟨"<M: void main()>"⟩, .assign relaySite.var (.string "A")⟩ := rfl
  have hsite : relaySite.edge ∈ relayProgram.succEdges ⟨0⟩ := by decide
  have hresult : relayResult.edge ∈ relayProgram.edges := by decide
  have hlocal : relayResult.value.isLocal = true := rfl
  obtain ⟨t₁, s₁', t₂, s₂', hsolve₁, hsolve₂, hdual⟩ :=
    solve_forward_iff_backward build_relayParts relay_regular rfl hstart hstart rfl rfl hassign rfl
      rfl hsite hresult hlocal
  have htop₁ := hsolve₁
  have htop₂ := hsolve₂
  rw [solve_topLevel rfl] at htop₁ htop₂
  have hc₁ := (complete_of_solveFrom hwf hcoh htop₁).2 (affords_standard _)
  have hc₂ := (complete_of_solveFrom hwf hcoh htop₂).2 (affords_standard _)
  have hreported : relaySite ∈ (s₂'.allocationSites relayResult).map Prod.fst := by
    rw [solveFrom_eq hwf hcoh rfl _ ⟨⟨_, rfl⟩, ⟨_, rfl⟩⟩] at htop₂
    cases htop₂
    rw [mem_allocationSites_after]
    have hsites := mem_sites_iff (s := relaySession) (e := relaySite.edge) hwf relayResult hc₂ hassign
      rfl rfl
    exact hsites.2 ⟨.empty, relay_facts⟩
  exact ⟨t₁, s₁', t₂, s₂', hsolve₁, hsolve₂, hc₁, hc₂, (hdual hc₁ hc₂).2 hreported, hreported⟩

end Session

end GuidedDataflow
