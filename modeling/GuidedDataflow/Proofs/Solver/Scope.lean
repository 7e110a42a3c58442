import GuidedDataflow.Proofs.Solver.Tables

/-!
Scoped solves. A session never loses a run, so a demand whose parent has a run that reached the
trigger can be solved whenever it is taken up, whatever is solved in between.
-/

namespace GuidedDataflow

open Std

namespace History

variable {ρ : Type}

/-- The history has a run from the seeds. -/
def Has (h : History ρ) (seeds : Seeds) : Prop := ∃ run, (seeds, run) ∈ h.runs

theorem has_record_iff {h : History ρ} {seeds other : Seeds} {run : ρ} :
    (h.record seeds run).Has other ↔ h.Has other ∨ other = seeds := by
  constructor
  · rintro ⟨kept, hkept⟩
    rcases mem_record.1 hkept with ⟨heq, -⟩ | ⟨hmem, -⟩
    · exact .inr heq
    · exact .inl ⟨kept, hmem⟩
  · intro h
    by_cases heq : other = seeds
    · exact ⟨run, mem_record.2 (.inl ⟨heq, rfl⟩)⟩
    · obtain ⟨kept, hkept⟩ := h.resolve_right heq
      exact ⟨kept, mem_record.2 (.inr ⟨hkept, heq⟩)⟩

/-- An optional history has what it has if it is there. -/
theorem has_getD_iff {kept : Option (History ρ)} {seeds : Seeds} :
    (kept.getD .empty).Has seeds ↔ ∃ h, kept = some h ∧ h.Has seeds := by
  cases kept with
  | none => simp [Has, empty]
  | some h => simp

end History

namespace Session

variable {s : Session}

/-- The session has a run of the query from the seeds. -/
def Kept (s : Session) : Query → Seeds → Prop
  | .forward q, seeds => ∃ h, s.forward[q]? = some h ∧ h.Has seeds
  | .backward q, seeds => ∃ h, s.backward[q]? = some h ∧ h.Has seeds

section Kept

variable {q : Query} {seeds origin : Seeds}

theorem kept_recordForward_iff {f : ForwardQuery} :
    (s.recordForward f origin).Kept q seeds ↔
      s.Kept q seeds ∨ (q = .forward f ∧ seeds = origin) := by
  cases q with
  | backward q => simp [Kept]
  | forward q =>
    simp only [Kept, getElem?_recordForward]
    by_cases heq : f = q
    · subst heq
      simp [History.has_record_iff, History.has_getD_iff]
    · simp [heq, Ne.symm heq]

theorem kept_recordBackward_iff {b : BackwardQuery} :
    (s.recordBackward b origin).Kept q seeds ↔
      s.Kept q seeds ∨ (q = .backward b ∧ seeds = origin) := by
  cases q with
  | forward q => simp [Kept, recordBackward]
  | backward q =>
    simp only [Kept, getElem?_recordBackward]
    by_cases heq : b = q
    · subst heq
      simp [History.has_record_iff, History.has_getD_iff]
    · simp [heq, Ne.symm heq]

theorem kept_recordSites_iff {run : BackwardRun} {sites : List ForwardQuery} :
    (s.recordSites run sites).Kept q seeds ↔
      s.Kept q seeds ∨ ∃ site ∈ sites, q = .forward site ∧ seeds = run.contextsOf site := by
  induction sites generalizing s with
  | nil => simp
  | cons site sites ih =>
    rw [recordSites_cons, ih, kept_recordForward_iff]
    simp only [List.mem_cons, exists_eq_or_imp, or_assoc]

/-- Solving keeps every run. -/
theorem Kept.after (h : s.Kept q seeds) (other : Query) (origin : Seeds) :
    (s.after other origin).Kept q seeds := by
  cases other with
  | forward f => exact kept_recordForward_iff.2 (.inl h)
  | backward b => exact kept_recordSites_iff.2 (.inl (kept_recordBackward_iff.2 (.inl h)))

end Kept

theorem kept_after_self (s : Session) (q : Query) (seeds : Seeds) :
    (s.after q seeds).Kept q seeds := by
  cases q with
  | forward q => exact kept_recordForward_iff.2 (.inr ⟨rfl, rfl⟩)
  | backward q =>
    exact kept_recordSites_iff.2 (.inl (kept_recordBackward_iff.2 (.inr ⟨rfl, rfl⟩)))

/-- What a kept run holds can be looked up as a store of its query. -/
theorem Kept.mem_storesOf? {q : Query} {seeds : Seeds} (h : s.Kept q seeds) (hs : s.Coherent) :
    ∃ stores, s.storesOf? q = some stores ∧ s.storeOf q seeds ∈ stores := by
  cases q with
  | forward q =>
    obtain ⟨history, hq, run, hrun⟩ := h
    obtain rfl := (hs.forward q history hq).eq_explore seeds run hrun
    refine ⟨history.all, ?_, History.mem_all.2 ⟨seeds, hrun⟩⟩
    rw [storesOf?, hq]
    rfl
  | backward q =>
    obtain ⟨history, hq, run, hrun⟩ := h
    obtain rfl := (hs.backward q history hq).eq_explore seeds run hrun
    refine ⟨history.all.map BackwardRun.store, ?_,
      List.mem_map.2 ⟨_, History.mem_all.2 ⟨seeds, hrun⟩, rfl⟩⟩
    rw [storesOf?, hq]
    rfl

/-- A forward table is the table of a kept run. -/
theorem Coherent.kept_of_forwardTable? (hs : s.Coherent) {q : ForwardQuery} {t : Table}
    (h : s.forwardTable? q = some t) :
    ∃ seeds, s.Kept (.forward q) seeds ∧ t = (s.storeOf (.forward q) seeds).table := by
  unfold forwardTable? at h
  obtain ⟨store, hstore, rfl⟩ := Option.map_eq_some_iff.1 h
  obtain ⟨history, hq, hlatest⟩ := Option.bind_eq_some_iff.1 hstore
  obtain ⟨⟨seeds, run⟩, hhead, rfl⟩ := Option.map_eq_some_iff.1 hlatest
  have hmem := List.mem_of_mem_head? hhead
  obtain rfl := (hs.forward q history hq).eq_explore seeds run hmem
  exact ⟨seeds, ⟨history, hq, _, hmem⟩, rfl⟩

theorem mem_foldr_contextsOf {c : Cell} {stores : List FactStore} {context : CallString} :
    context ∈ stores.foldr (fun store found => (store.contextsOf c).union found)
      (OrderedSet.empty : Seeds) ↔ ∃ store ∈ stores, context ∈ store.contextsOf c := by
  induction stores with
  | nil => simp
  | cons store stores ih =>
    rw [List.foldr_cons, OrderedSet.mem_union, ih]
    simp only [List.mem_cons, exists_eq_or_imp]

theorem scopeSeeds_of_mem_reachedUnder {scope : Scope} {context : CallString}
    (h : context ∈ s.reachedUnder scope.parent scope.trigger) (q : Query) :
    s.scopeSeeds q scope = .ok (s.reachedUnder scope.parent scope.trigger) := by
  have hstores : (s.storesOf? scope.parent).isNone = false := by
    cases hstores : s.storesOf? scope.parent with
    | some stores => rfl
    | none => simp [reachedUnder, hstores] at h
  have hnonempty : (s.reachedUnder scope.parent scope.trigger).isEmpty = false :=
    List.isEmpty_eq_false_iff_exists_mem.2 ⟨context, h⟩
  simp only [scopeSeeds, hstores, hnonempty, Bool.false_eq_true, if_false]

/-- A scope whose parent has a run that reached the trigger gives a solve its seeds. -/
theorem Kept.scopeSeeds {scope : Scope} {seeds : Seeds} (h : s.Kept scope.parent seeds)
    (hs : s.Coherent) (htrigger : scope.trigger ∈ (s.storeOf scope.parent seeds).table) (q : Query) :
    ∃ found, s.scopeSeeds q scope = .ok found := by
  obtain ⟨stores, hstores, hmem⟩ := h.mem_storesOf? hs
  obtain ⟨context, hcontext⟩ := FactStore.mem_table_iff_exists_mem_contextsOf.1 htrigger
  have hreached : context ∈ s.reachedUnder scope.parent scope.trigger := by
    rw [reachedUnder, hstores, Option.getD_some, mem_foldr_contextsOf]
    exact ⟨_, hmem, hcontext⟩
  exact ⟨_, scopeSeeds_of_mem_reachedUnder hreached q⟩

/-- The demand's edge is known and its scope, if any, has been reached. -/
structure Resolves (s : Session) (d : Demand) : Prop where
  knows : s.program.Knows d.query.edge
  scope : ∀ scope, d.scope = some scope → ∃ seeds, s.Kept scope.parent seeds ∧
    scope.trigger ∈ (s.storeOf scope.parent seeds).table

theorem storeOf_eq {s' : Session} (hprogram : s'.program = s.program)
    (hoptions : s'.options = s.options) (q : Query) (seeds : Seeds) :
    s'.storeOf q seeds = s.storeOf q seeds := by
  unfold storeOf exploration explore
  rw [hprogram, hoptions]

theorem storeOf_after (s : Session) (q other : Query) (seeds origin : Seeds) :
    (s.after other origin).storeOf q seeds = s.storeOf q seeds :=
  storeOf_eq (after_program ..) (after_options ..) q seeds

namespace Resolves

variable {d : Demand}

/-- Whatever is solved in between, the demand stays resolvable. -/
theorem after (h : s.Resolves d) (q : Query) (seeds : Seeds) : (s.after q seeds).Resolves d := by
  refine ⟨?_, fun scope hscope => ?_⟩
  · rw [after_program]
    exact h.knows
  · obtain ⟨found, hkept, htrigger⟩ := h.scope scope hscope
    refine ⟨found, hkept.after q seeds, ?_⟩
    rw [storeOf_after]
    exact htrigger

theorem solve (h : s.Resolves d) (hp : s.program.WellFormed) (hs : s.Coherent)
    (hopen : s.closed = false) : ∃ r, s.solve d = .ok r := by
  rw [solve_eq hopen, seedsOf]
  cases hscope : d.scope with
  | none => exact ⟨_, solveFrom_eq hp hs hopen _ h.knows _⟩
  | some scope =>
    obtain ⟨found, hkept, htrigger⟩ := h.scope scope hscope
    obtain ⟨seeds, hseeds⟩ := hkept.scopeSeeds hs htrigger d.query
    simp only [hseeds]
    exact ⟨_, solveFrom_eq hp hs hopen _ h.knows _⟩

end Resolves

end Session

end GuidedDataflow
