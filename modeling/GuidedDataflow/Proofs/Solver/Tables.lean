import GuidedDataflow.Proofs.Solver.Record

/-!
What a session answers after a solve: the table of the query's run, the forward tables of the
sites that a backward run found, and these sites. All other forward tables stay.
-/

namespace GuidedDataflow.Session

open Std

variable {s : Session}

/-- The seeds that a demand resolves to. -/
def seedsOf (s : Session) (d : Demand) : Except SolveError Seeds :=
  match d.scope with
  | none => .ok (.singleton .empty)
  | some scope => s.scopeSeeds d.query scope

/-- A demand whose seeds can be told is solved from them. -/
theorem perform_of_seeds (hopen : s.closed = false) {d : Demand} {seeds : Seeds}
    (h : s.seedsOf d = .ok seeds) : perform d s = performFrom d.query seeds s := by
  unfold perform
  rw [InPlace.bind_of_ok (InPlace.ask_of_ok ((ensureOpen_eq_ok s).2 hopen))]
  unfold seedsOf at h
  cases hscope : d.scope with
  | none =>
    rw [hscope] at h
    cases h
    rfl
  | some scope =>
    rw [hscope] at h
    exact InPlace.bind_of_ok (InPlace.ask_of_ok h)

/-- A demand whose seeds cannot be told is refused and has not changed anything. -/
theorem perform_of_no_seeds (hopen : s.closed = false) {d : Demand} {e : SolveError}
    (h : s.seedsOf d = .error e) : perform d s = .error e s := by
  unfold perform
  rw [InPlace.bind_of_ok (InPlace.ask_of_ok ((ensureOpen_eq_ok s).2 hopen))]
  unfold seedsOf at h
  cases hscope : d.scope with
  | none =>
    rw [hscope] at h
    cases h
  | some scope =>
    rw [hscope] at h
    exact InPlace.bind_of_error (InPlace.ask_of_error h)

theorem solve_eq (hopen : s.closed = false) (d : Demand) :
    s.solve d = (s.seedsOf d).bind (s.solveFrom d.query) := by
  unfold solve InPlace.answer
  cases hseeds : s.seedsOf d with
  | error e =>
    rw [perform_of_no_seeds hopen hseeds]
    rfl
  | ok seeds =>
    rw [perform_of_seeds hopen hseeds]
    rfl

theorem solve_topLevel (hopen : s.closed = false) (q : Query) :
    s.solve (.topLevel q) = s.solveFrom q (.singleton .empty) :=
  solve_eq hopen _

theorem exists_solveFrom (hopen : s.closed = false) {d : Demand} {r : Table × Session}
    (h : s.solve d = .ok r) :
    ∃ seeds, s.seedsOf d = .ok seeds ∧ s.solveFrom d.query seeds = .ok r := by
  rw [solve_eq hopen] at h
  cases hseeds : s.seedsOf d with
  | error e =>
    rw [hseeds] at h
    cases h
  | ok seeds =>
    rw [hseeds] at h
    exact ⟨seeds, rfl, h⟩

/-- An open session over the program, with the options, whose runs are all explorations. -/
structure Ready (s : Session) (p : Program) (o : SolverOptions) : Prop where
  program : s.program = p
  options : s.options = o
  coherent : s.Coherent
  isOpen : s.closed = false

/-- A successful solve records the query from some seeds. -/
theorem Ready.solve {p : Program} {o : SolverOptions} (hs : s.Ready p o) (hp : p.WellFormed)
    {d : Demand} {t : Table} {s' : Session} (h : s.solve d = .ok (t, s')) :
    s'.Ready p o ∧ ∃ seeds, s' = s.after d.query seeds ∧ t = (s.storeOf d.query seeds).table := by
  obtain ⟨rfl, rfl, hcoh, hopen⟩ := hs
  obtain ⟨seeds, -, hsolve⟩ := exists_solveFrom hopen h
  obtain ⟨-, hq⟩ := open_knows_of_solveFrom hsolve
  rw [solveFrom_eq hp hcoh hopen _ hq] at hsolve
  cases hsolve
  exact ⟨⟨after_program .., after_options .., hcoh.after _ _, (after_closed ..).trans hopen⟩,
    seeds, rfl, rfl⟩

theorem forwardTable?_recordForward (s : Session) (q other : ForwardQuery) (seeds : Seeds) :
    (s.recordForward q seeds).forwardTable? other =
      if q = other then some (s.exploreForward q seeds).table else s.forwardTable? other := by
  unfold forwardTable?
  rw [getElem?_recordForward]
  split
  · rfl
  · rfl

theorem forwardTable?_recordSites (s : Session) (run : BackwardRun) (sites : List ForwardQuery)
    (q : ForwardQuery) :
    (s.recordSites run sites).forwardTable? q =
      if q ∈ sites then some (s.exploreForward q (run.contextsOf q)).table
      else s.forwardTable? q := by
  induction sites generalizing s with
  | nil => rfl
  | cons site sites ih =>
    rw [recordSites_cons, ih, forwardTable?_recordForward]
    by_cases hlater : q ∈ sites
    · rw [if_pos hlater, if_pos (List.mem_cons_of_mem _ hlater)]
      rfl
    · rw [if_neg hlater]
      by_cases heq : site = q
      · subst heq
        rw [if_pos rfl, if_pos List.mem_cons_self]
      · have hnot : q ∉ site :: sites := by
          rw [List.mem_cons]
          rintro (h | h)
          · exact heq h.symm
          · exact hlater h
        rw [if_neg heq, if_neg hnot]

theorem forwardTable?_after_backward (s : Session) (b : BackwardQuery) (seeds : Seeds)
    (q : ForwardQuery) :
    (s.after (.backward b) seeds).forwardTable? q =
      if q ∈ (s.exploreBackward b seeds).sites then
        some (s.exploreForward q ((s.exploreBackward b seeds).contextsOf q)).table
      else s.forwardTable? q :=
  forwardTable?_recordSites _ _ _ _

theorem latest?_after_backward (s : Session) (b : BackwardQuery) (seeds : Seeds) :
    (s.after (.backward b) seeds).backward[b]?.bind History.latest? =
      some (s.exploreBackward b seeds) := by
  simp [after, getElem?_recordBackward]

theorem mem_activeForward {q : ForwardQuery} {t : Table} (h : s.forwardTable? q = some t) :
    q ∈ s.activeForward := by
  unfold forwardTable? at h
  rw [activeForward, TreeMap.mem_keys, TreeMap.mem_iff_isSome_getElem?]
  cases hq : s.forward[q]? with
  | none =>
    rw [hq] at h
    cases h
  | some history => rfl

/-- The sites that a backward solve reports are those of its exploration. -/
theorem mem_allocationSites_after (s : Session) (q : BackwardQuery) (seeds : Seeds)
    (site : ForwardQuery) :
    site ∈ ((s.after (.backward q) seeds).allocationSites q).map Prod.fst ↔
      ∃ context, context ∈ (s.exploreBackward q seeds).contextsOf site := by
  unfold allocationSites
  rw [latest?_after_backward]
  simp only [List.mem_map, List.mem_filterMap, Option.map_eq_some_iff]
  constructor
  · rintro ⟨_, ⟨other, -, context, hhead, rfl⟩, rfl⟩
    exact ⟨context, List.mem_of_mem_head? hhead⟩
  · rintro ⟨context, hcontext⟩
    cases hlist : ((s.exploreBackward q seeds).contextsOf site).toList with
    | nil =>
      have hmem : context ∈ ((s.exploreBackward q seeds).contextsOf site).toList := hcontext
      rw [hlist] at hmem
      cases hmem
    | cons first rest =>
      exact ⟨_, ⟨site, BackwardRun.mem_sites.2 ⟨context, hcontext⟩, first, by rw [hlist]; rfl, rfl⟩,
        rfl⟩

section Answers

variable (hp : s.program.WellFormed) {q : Query} {seeds : Seeds}
include hp

/-- Every cell of a table has been reached. -/
theorem exists_reached_of_mem_table {c : Cell} (h : c ∈ (s.storeOf q seeds).table) :
    ∃ f ∈ q.facts s.program s.options.maxCallDepth seeds, f.cell = c := by
  obtain ⟨f, hf, hcell⟩ := FactStore.mem_table.1 h
  exact ⟨f, (outcome_exploration s hp q seeds).stored_reached f hf, hcell⟩

/-- A complete table has every cell that is reached. -/
theorem mem_table_of_reached (hc : (s.storeOf q seeds).complete = true) {f : Fact}
    (hf : f ∈ q.facts s.program s.options.maxCallDepth seeds) :
    f.cell ∈ (s.storeOf q seeds).table :=
  FactStore.mem_table.2 ⟨f, (outcome_exploration s hp q seeds).reached_stored hc f hf, rfl⟩

variable {b : BackwardQuery} {site : ForwardQuery}

/-- Every site that a backward solve reports is an allocation at a fact that it reached. -/
theorem exists_reached_of_mem_sites
    (h : site ∈ ((s.after (.backward b) seeds).allocationSites b).map Prod.fst) :
    ∃ f ∈ (Query.backward b).facts s.program s.options.maxCallDepth seeds,
      Flow.allocation? s.program f = some site := by
  obtain ⟨context, hcontext⟩ := (mem_allocationSites_after s b seeds site).1 h
  obtain ⟨f, hf, hsite, -⟩ := exists_reached_of_mem_contextsOf hp hcontext
  exact ⟨f, hf, hsite⟩

/-- A complete backward solve reports the allocations at all facts that are reached. -/
theorem mem_sites_of_reached (hc : (s.storeOf (.backward b) seeds).complete = true) {f : Fact}
    (hf : f ∈ (Query.backward b).facts s.program s.options.maxCallDepth seeds)
    (hsite : Flow.allocation? s.program f = some site) :
    site ∈ ((s.after (.backward b) seeds).allocationSites b).map Prod.fst := by
  have hcontext := (mem_contextsOf_iff hp hc).2 ⟨f, hf, hsite, rfl⟩
  exact (mem_allocationSites_after s b seeds site).2 ⟨f.context, hcontext⟩

end Answers

end GuidedDataflow.Session
