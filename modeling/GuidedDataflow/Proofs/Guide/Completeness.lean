import GuidedDataflow.Proofs.Guide.Trace
import GuidedDataflow.Proofs.Solver.Tables

/-!
What a report marked complete says of the tables that its run matched. The table of every
solved query is complete. A forward table of an allocation site is complete only if the step
limit, which each site gets anew, suffices for that site as well; the mark does not see it.
-/

namespace GuidedDataflow

open Session

namespace Session

/-- Every forward table that the session holds is complete. -/
def AllComplete (s : Session) : Prop := ∀ q t, s.forwardTable? q = some t → t.complete = true

theorem Ready.complete_iff {s : Session} {p : Program} {o : SolverOptions} (hs : s.Ready p o)
    (hp : p.WellFormed) (htime : o.timeoutMs ≠ 0) (q : Query) (seeds : Seeds) :
    (s.storeOf q seeds).complete = true ↔
      o.maxPropagations = 0 ∨ (q.facts p o.maxCallDepth seeds).ncard ≤ o.maxPropagations := by
  obtain ⟨rfl, rfl, -, -⟩ := hs
  rw [← SolverOptions.affords_iff htime]
  exact (outcome_exploration s hp q seeds).complete_iff

end Session

namespace Setup

/-- The step limit suffices for each site that the latest solve of the query found. -/
def AffordsSites (u : Setup) (s : Session) (q : Query) : Prop :=
  ∀ b run, q = .backward b → s.backward[b]?.bind History.latest? = some run →
    ∀ site ∈ run.sites, u.config.maxPropagations = 0 ∨
      ((Query.forward site).facts u.program u.config.maxCallDepth (run.contextsOf site)).ncard ≤
        u.config.maxPropagations

variable {u : Setup}

/-- Of the matched tables the first is the solve's own, and all others the session holds. -/
theorem matched_cases {s : Session} {q : Query} {t : Table} {m : Matched}
    (h : m ∈ u.matched (.reachability u.program) s q t) :
    m = ⟨q, q.direction, t⟩ ∨ ∃ f, m.parent = .forward f ∧ s.forwardTable? f = some m.table := by
  have htables : ∀ l, m ∈ forwardTables (.reachability u.program) s l →
      ∃ f, m.parent = .forward f ∧ s.forwardTable? f = some m.table := by
    intro l hl
    obtain ⟨f, -, t', ht', rfl⟩ := mem_forwardTables.1 hl
    exact ⟨f, rfl, ht'⟩
  rcases List.mem_cons.1 h with rfl | h
  · exact .inl rfl
  · right
    cases q with
    | forward q => cases h
    | backward b =>
      cases hpolicy : u.config.propagation with
      | localOnly =>
        simp only [siteTables, rescanned, hpolicy, List.append_nil] at h
        exact htables _ h
      | globalRescan rules =>
        simp only [siteTables, rescanned, hpolicy, List.nil_append] at h
        exact htables _ h

/-- Under either policy the table of a site that a backward solve found is matched. -/
theorem mem_matched_site {s : Session} {b : BackwardQuery} {t t' : Table} {site : ForwardQuery}
    (hsite : site ∈ (s.allocationSites b).map Prod.fst) (ht' : s.forwardTable? site = some t') :
    ⟨.forward site, .forward, t'⟩ ∈ u.matched (.reachability u.program) s (.backward b) t := by
  have htables : ∀ l, site ∈ l →
      ⟨.forward site, .forward, t'⟩ ∈ forwardTables (.reachability u.program) s l := fun l hl =>
    mem_forwardTables.2 ⟨site, hl, t', ht', rfl⟩
  refine List.mem_cons_of_mem _ (List.mem_append.2 ?_)
  cases hpolicy : u.config.propagation with
  | localOnly =>
    left
    unfold siteTables
    rw [hpolicy]
    exact htables _ (OrderedSet.mem_ofList.2 hsite)
  | globalRescan rules =>
    right
    unfold rescanned
    rw [hpolicy]
    exact htables _ (mem_activeForward ht')

/-- A complete solve keeps all tables complete where the step limit suffices for its sites. -/
theorem allComplete_solve {s s' : Session} {d : Demand} {t : Table}
    (hs : s.Ready u.program u.config.solverOptions) (hp : u.program.WellFormed)
    (htime : u.config.solverTimeoutMs ≠ 0) (h : s.solve d = .ok (t, s')) (hall : s.AllComplete)
    (ht : t.complete = true) (hsites : u.AffordsSites s' d.query) : s'.AllComplete := by
  obtain ⟨-, seeds, rfl, rfl⟩ := hs.solve hp h
  intro f t' hf
  cases hq : d.query with
  | forward q =>
    rw [hq] at hf ht
    simp only [after, forwardTable?_recordForward] at hf
    split at hf
    · cases hf
      exact ht
    · exact hall f t' hf
  | backward b =>
    rw [hq] at hf hsites
    rw [forwardTable?_after_backward] at hf
    split at hf
    · next hsite =>
      cases hf
      exact (hs.complete_iff hp htime (.forward f) _).2
        (hsites b _ rfl (latest?_after_backward s b seeds) f hsite)
    · exact hall f t' hf

/-- If all tables matched after a backward solve are complete, the step limit suffices for its
sites. -/
theorem affordsSites_of_matched {s s' : Session} {d : Demand} {t : Table}
    (hs : s.Ready u.program u.config.solverOptions) (hp : u.program.WellFormed)
    (htime : u.config.solverTimeoutMs ≠ 0) (h : s.solve d = .ok (t, s'))
    (hall : ∀ m ∈ u.matched (.reachability u.program) s' d.query t, m.table.complete = true) :
    u.AffordsSites s' d.query := by
  obtain ⟨-, seeds, rfl, rfl⟩ := hs.solve hp h
  intro b run hq hrun site hsite
  rw [hq] at hrun hall
  obtain rfl : s.exploreBackward b seeds = run := by
    rw [latest?_after_backward] at hrun
    exact Option.some.inj hrun
  have htable : (s.after (.backward b) seeds).forwardTable? site =
      some (s.exploreForward site ((s.exploreBackward b seeds).contextsOf site)).table := by
    rw [forwardTable?_after_backward, if_pos hsite]
  have hreported := (mem_allocationSites_after s b seeds site).2 (BackwardRun.mem_sites.1 hsite)
  have hmatched := hall _ (mem_matched_site (u := u) hreported htable)
  exact (hs.complete_iff hp htime (.forward site) _).1 hmatched

namespace Trace

variable {fuel : Nat} {s : Session} {p : Progress} {solved : List (Solved Session)}
  {calls : List BackendCall} {result : Except RunError Report}

theorem allComplete (h : u.Trace (.reachability u.program) fuel s p solved calls result)
    (hs : s.Ready u.program u.config.solverOptions) (hp : u.program.WellFormed)
    (htime : u.config.solverTimeoutMs ≠ 0) (hall : s.AllComplete)
    (htables : ∀ sol ∈ solved, sol.table.complete = true)
    (hsites : ∀ sol ∈ solved, u.AffordsSites sol.session sol.demand.query) :
    ∀ sol ∈ solved, sol.session.AllComplete := by
  induction h with
  | done => exact fun sol h => by cases h
  | capped => exact fun sol h => by cases h
  | exhausted => exact fun sol h => by cases h
  | failed => exact fun sol h => by cases h
  | @solved _ s s' _ d _ t _ _ _ _ _ solves _ ih =>
    rw [List.forall_mem_cons] at htables hsites ⊢
    have hs' := (hs.solve hp solves).1
    have hall' := allComplete_solve hs hp htime solves hall htables.1 hsites.1
    exact ⟨hall', ih hs' hall' htables.2 hsites.2⟩

theorem affordsSites (h : u.Trace (.reachability u.program) fuel s p solved calls result)
    (hs : s.Ready u.program u.config.solverOptions) (hp : u.program.WellFormed)
    (htime : u.config.solverTimeoutMs ≠ 0)
    (hall : ∀ sol ∈ solved, ∀ m ∈ u.matched (.reachability u.program) sol.session
      sol.demand.query sol.table, m.table.complete = true) :
    ∀ sol ∈ solved, u.AffordsSites sol.session sol.demand.query := by
  induction h with
  | done => exact fun sol h => by cases h
  | capped => exact fun sol h => by cases h
  | exhausted => exact fun sol h => by cases h
  | failed => exact fun sol h => by cases h
  | solved _ _ solves _ ih =>
    rw [List.forall_mem_cons] at hall ⊢
    have hs' := (hs.solve hp solves).1
    exact ⟨affordsSites_of_matched hs hp htime solves hall.1, ih hs' hall.2⟩

end Trace

/-- A constant that flows over two edges. -/
def passParts : List (Signature × List Instruction) :=
  let main : Signature := ⟨"<M: void main()>"⟩
  [(main, [.assign (.localVar "x" main) (.string "A"), .nop, .ret none])]

/-- One step for each solve. -/
def passSetup : Setup :=
  ⟨(Program.build passParts).toOption.getD .empty, .empty,
    { Config.standard with maxPropagations := 1 }⟩

def passQuery : Query := .backward ⟨⟨⟨0⟩, ⟨1⟩⟩, .localVar "x" ⟨"<M: void main()>"⟩⟩

end Setup

end GuidedDataflow
