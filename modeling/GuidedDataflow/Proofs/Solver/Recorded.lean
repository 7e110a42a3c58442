import GuidedDataflow.Proofs.Flow.Placement
import GuidedDataflow.Proofs.Solver.Replay

/-!
What all recorded facts have in common. If steps of both directions keep a property and every
demand starts at facts that have it, then every fact that a session has recorded has it,
whatever calls have been made: also the facts of the runs that backward solves make of their
sites, since these start at facts that the backward runs have reached.
-/

namespace GuidedDataflow

open Std

/-- The demand starts at facts with the property: at top level at once, and under a scope as far
as its trigger has the property. -/
structure Demand.StartsIn (d : Demand) (P : Fact → Prop) : Prop where
  topLevel : d.scope = none → P (.ofCell d.query.cell .empty)
  within : ∀ scope, d.scope = some scope → ∀ context, P (.ofCell scope.trigger context) →
    P (.ofCell d.query.cell context)

namespace Session

variable {s : Session} {P : Fact → Prop} {q : Query} {seeds : Seeds}

/-- Some run of some query holds the fact. -/
def Records (s : Session) (f : Fact) : Prop :=
  ∃ q stores, s.storesOf? q = some stores ∧ ∃ store ∈ stores, f ∈ store

/-- Every recorded fact has the property. -/
def Upholds (s : Session) (P : Fact → Prop) : Prop := ∀ f, s.Records f → P f

theorem Kept.records (h : s.Kept q seeds) (hs : s.Coherent) {f : Fact}
    (hf : f ∈ s.storeOf q seeds) : s.Records f := by
  obtain ⟨stores, hstores, hmem⟩ := h.mem_storesOf? hs
  exact ⟨q, stores, hstores, _, hmem, hf⟩

/-- A complete solve records whatever its query reaches. -/
theorem records_of_complete (hp : s.program.WellFormed) (hs : s.Coherent) {r : Table × Session}
    (h : s.solveFrom q seeds = .ok r) (hc : r.1.complete = true) {f : Fact}
    (hf : f ∈ q.facts s.program s.options.maxCallDepth seeds) : r.2.Records f := by
  obtain ⟨hopen, hknows⟩ := open_knows_of_solveFrom h
  rw [solveFrom_eq hp hs hopen q hknows] at h
  cases h
  refine (kept_after_self s q seeds).records (hs.after q seeds) ?_
  rw [storeOf_after]
  exact (outcome_exploration s hp q seeds).reached_stored hc f hf

theorem Coherent.exists_kept_of_records (hs : s.Coherent) {f : Fact} (h : s.Records f) :
    ∃ q seeds, s.Kept q seeds ∧ f ∈ s.storeOf q seeds := by
  obtain ⟨q, stores, hstores, store, hstore, hf⟩ := h
  cases q with
  | forward q =>
    obtain ⟨history, hq, rfl⟩ := Option.map_eq_some_iff.1 hstores
    obtain ⟨seeds, hrun⟩ := History.mem_all.1 hstore
    obtain rfl := (hs.forward q history hq).eq_explore seeds store hrun
    exact ⟨.forward q, seeds, ⟨history, hq, _, hrun⟩, hf⟩
  | backward q =>
    obtain ⟨history, hq, rfl⟩ := Option.map_eq_some_iff.1 hstores
    obtain ⟨run, hmem, rfl⟩ := List.mem_map.1 hstore
    obtain ⟨seeds, hrun⟩ := History.mem_all.1 hmem
    obtain rfl := (hs.backward q history hq).eq_explore seeds run hrun
    exact ⟨.backward q, seeds, ⟨history, hq, _, hrun⟩, hf⟩

/-- A solve adds the runs that it makes. -/
theorem kept_after_iff {other : Query} {origin : Seeds} :
    (s.after other origin).Kept q seeds ↔ s.Kept q seeds ∨ ⟨q, seeds⟩ ∈ s.made other origin := by
  cases other with
  | forward f =>
    simp only [after, kept_recordForward_iff, made, List.mem_singleton, SolveRecord.mk.injEq]
  | backward b =>
    simp only [after, kept_recordSites_iff, kept_recordBackward_iff, made, List.mem_cons,
      List.mem_map, SolveRecord.mk.injEq, or_assoc]
    refine or_congr_right (or_congr_right ?_)
    constructor
    · rintro ⟨site, hmem, rfl, rfl⟩
      exact ⟨site, hmem, rfl, rfl⟩
    · rintro ⟨site, hmem, rfl, rfl⟩
      exact ⟨site, hmem, rfl, rfl⟩

/-- No solve loses a recorded fact. -/
theorem Records.after (hs : s.Coherent) {f : Fact} (h : s.Records f) (other : Query)
    (origin : Seeds) : (s.after other origin).Records f := by
  obtain ⟨q, seeds, hkept, hmem⟩ := hs.exists_kept_of_records h
  refine (hkept.after other origin).records (hs.after other origin) ?_
  rw [storeOf_after]
  exact hmem

section Solve

variable (hstable : Flow.Stable s.program s.options.maxCallDepth P)
  (hseeds : ∀ context ∈ seeds, P (.ofCell q.cell context)) (hp : s.program.WellFormed)
include hstable hseeds hp

theorem forall_mem_storeOf {f : Fact} (hf : f ∈ s.storeOf q seeds) : P f :=
  hstable.reached hseeds ((outcome_exploration s hp q seeds).stored_reached f hf)

/-- Each run that a solve makes starts at facts with the property. -/
theorem forall_made {record : SolveRecord} (h : record ∈ s.made q seeds) :
    ∀ context ∈ record.seeds, P (.ofCell record.query.cell context) := by
  cases q with
  | forward q =>
    obtain rfl := List.mem_singleton.1 h
    exact hseeds
  | backward b =>
    rcases List.mem_cons.1 h with rfl | hsite
    · exact hseeds
    · obtain ⟨site, -, rfl⟩ := List.mem_map.1 hsite
      intro context hcontext
      obtain ⟨f, hreached, hfound, rfl⟩ := exists_reached_of_mem_contextsOf hp hcontext
      obtain ⟨-, -, -, -, -, rfl⟩ := Flow.allocation?_eq_some.1 hfound
      exact hstable.reached hseeds hreached

theorem Upholds.after (hs : s.Coherent) (h : s.Upholds P) : (s.after q seeds).Upholds P := by
  intro f hf
  obtain ⟨other, origin, hkept, hmem⟩ := (hs.after q seeds).exists_kept_of_records hf
  rw [storeOf_after] at hmem
  rcases kept_after_iff.1 hkept with hold | hmade
  · exact h f (hold.records hs hmem)
  · exact forall_mem_storeOf hstable (forall_made hstable hseeds hp hmade) hp hmem

end Solve

variable {p : Program} {o : SolverOptions}

/-- The seeds of a demand are those of the top level or are recorded at its trigger. -/
theorem mem_seedsOf {d : Demand} (h : s.seedsOf d = .ok seeds) {context : CallString}
    (hcontext : context ∈ seeds) : (d.scope = none ∧ context = .empty) ∨
      ∃ scope, d.scope = some scope ∧ s.Records (.ofCell scope.trigger context) := by
  unfold seedsOf at h
  cases hscope : d.scope with
  | none =>
    rw [hscope] at h
    cases h
    exact .inl ⟨rfl, OrderedSet.mem_singleton.1 hcontext⟩
  | some scope =>
    rw [hscope] at h
    refine .inr ⟨scope, rfl, ?_⟩
    simp only [scopeSeeds] at h
    split at h
    · cases h
    · split at h
      · cases h
      · cases h
        obtain ⟨store, hstore, hmem⟩ := mem_foldr_contextsOf.1 hcontext
        cases hstores : s.storesOf? scope.parent with
        | none =>
          rw [hstores] at hstore
          cases hstore
        | some stores =>
          rw [hstores] at hstore
          exact ⟨scope.parent, stores, hstores, store, hstore, FactStore.mem_contextsOf.1 hmem⟩

theorem Upholds.starts (h : s.Upholds P) {d : Demand} (hd : d.StartsIn P)
    (hseeds : s.seedsOf d = .ok seeds) : ∀ context ∈ seeds, P (.ofCell d.query.cell context) := by
  intro context hcontext
  rcases mem_seedsOf hseeds hcontext with ⟨hscope, rfl⟩ | ⟨scope, hscope, hrecords⟩
  · exact hd.topLevel hscope
  · exact hd.within scope hscope context (h _ hrecords)

theorem Records.call (hs : s.Ready p o) (hp : p.WellFormed) {f : Fact} (h : s.Records f)
    (d : Demand) : (s.call d).Records f := by
  unfold Session.call
  rcases hs.call_cases hp d with ⟨seeds, -, -, hsolve⟩ | ⟨e, hsolve⟩
  · rw [hsolve]
    exact h.after hs.coherent d.query seeds
  · rw [hsolve]
    exact h

theorem Records.callAll (hs : s.Ready p o) (hp : p.WellFormed) {f : Fact} (h : s.Records f)
    (ds : List Demand) : (s.callAll ds).Records f := by
  induction ds generalizing s with
  | nil => exact h
  | cons d ds ih => exact ih (hs.call hp d) (h.call hs hp d)

section Calls

variable (hp : p.WellFormed) (hstable : Flow.Stable p o.maxCallDepth P)
include hp hstable

theorem Upholds.call (hs : s.Ready p o) (h : s.Upholds P) {d : Demand} (hd : d.StartsIn P) :
    (s.call d).Upholds P := by
  unfold Session.call
  rcases hs.call_cases hp d with ⟨seeds, hseeds, -, hsolve⟩ | ⟨e, hsolve⟩
  · rw [hsolve]
    obtain ⟨rfl, rfl, hcoh, -⟩ := hs
    exact Upholds.after hstable (h.starts hd hseeds) hp hcoh h
  · rw [hsolve]
    exact h

/-- What steps keep and demands start in holds of every fact that calls have recorded. -/
theorem Upholds.callAll (hs : s.Ready p o) (h : s.Upholds P) {ds : List Demand}
    (hds : ∀ d ∈ ds, d.StartsIn P) : (s.callAll ds).Upholds P := by
  induction ds generalizing s with
  | nil => exact h
  | cons d ds ih =>
    have hd := hds d List.mem_cons_self
    exact ih (hs.call hp d) (Upholds.call hp hstable hs h hd) fun other hother =>
      hds other (List.mem_cons_of_mem _ hother)

end Calls

/-- A session that has just been opened has recorded nothing. -/
theorem upholds_of_start (h : Session.start p o = .ok s) : s.Upholds P := by
  unfold Session.start at h
  split at h
  · cases h
  · cases h
    rintro f ⟨q, stores, hstores, -⟩
    cases q <;> simp [storesOf?] at hstores

end Session

end GuidedDataflow
