import GuidedDataflow.Proofs.Solver.LeastSolve
import GuidedDataflow.Proofs.Solver.Scope

/-!
When a session refuses a solve. Whatever has been done with it, it refuses one only because it is
closed, because the scope does not hold or because the query's edge is unknown, whichever of these
is met first. By then nothing has been changed: what comes after the checks does not fail, not even
the solves of the sites that a backward solve finds when it has already recorded its own run.
-/

namespace GuidedDataflow

open Std

namespace History

variable {ρ : Type} {h : History ρ} {explore : Seeds → ρ} {run : ρ}

/-- Every run of a history that explores can be found by its seeds. -/
theorem Explores.mem_all_iff (hh : h.Explores explore) :
    run ∈ h.all ↔ ∃ seeds, h.find? seeds = some run := by
  rw [mem_all]
  constructor
  · rintro ⟨seeds, hmem⟩
    obtain ⟨⟨other, kept⟩, hfind⟩ : ∃ x, h.runs.find? (·.1 = seeds) = some x :=
      Option.isSome_iff_exists.1 (List.find?_isSome.2 ⟨_, hmem, by simp⟩)
    -- the run found first may be another entry, but it is the same exploration
    have hother : other = seeds := by simpa using List.find?_some hfind
    have hkept := hh.eq_explore other kept (List.mem_of_find?_eq_some hfind)
    refine ⟨seeds, ?_⟩
    rw [find?, hfind, hh.eq_explore seeds run hmem, Option.map_some, hkept, hother]
  · rintro ⟨seeds, hfind⟩
    exact ⟨seeds, mem_of_find? hfind⟩

theorem Explores.exists_mem_all (hh : h.Explores explore) : ∃ run, run ∈ h.all := by
  obtain ⟨⟨seeds, run⟩, hmem⟩ := List.exists_mem_of_ne_nil _ hh.ne_nil
  exact ⟨run, mem_all.2 ⟨seeds, hmem⟩⟩

end History

/-- What changes a session. -/
inductive Operation where
  | solve (d : Demand)
  | close
deriving DecidableEq, Inhabited, Repr

namespace Session

namespace InPlace

variable {α : Type} {work : InPlace α} {s s' : Session} {a : α} {e : SolveError}

/-- The session that the work leaves, also if it fails. -/
def leave (work : InPlace α) (s : Session) : Session :=
  match work s with
  | .ok _ s' => s'
  | .error _ s' => s'

theorem leave_of_ok (h : work s = .ok a s') : work.leave s = s' := by
  rw [leave, h]

theorem leave_of_error (h : work s = .error e s') : work.leave s = s' := by
  rw [leave, h]

end InPlace

variable {s : Session}

/-- The session after the operation, also if it fails. -/
def operate (s : Session) : Operation → Session
  | .solve d => (perform d).leave s
  | .close => s.close

def operateAll (s : Session) (ops : List Operation) : Session := ops.foldl operate s

/-- The session has a run of the query, with this store. -/
def HasRun (s : Session) (q : Query) (store : FactStore) : Prop :=
  ∃ seeds, s.recordedStore? q seeds = some store

/-- Some run of the scope's parent recorded the trigger. -/
def Supports (s : Session) (scope : Scope) : Prop :=
  ∃ store, s.HasRun scope.parent store ∧ scope.trigger ∈ store.table

/-- Why the session refuses the demand: each cause only if none of those before it holds. -/
inductive Refuses (s : Session) (d : Demand) : SolveError → Prop
  | closed (h : s.closed = true) : s.Refuses d .sessionClosed
  | unknownParent {scope : Scope} (hopen : s.closed = false) (hscope : d.scope = some scope)
      (h : ∀ store, ¬ s.HasRun scope.parent store) :
      s.Refuses d (.unknownParent d.query scope.parent)
  | unknownTrigger {scope : Scope} {store : FactStore} (hopen : s.closed = false)
      (hscope : d.scope = some scope) (hrun : s.HasRun scope.parent store)
      (h : ¬ s.Supports scope) :
      s.Refuses d (.unknownTrigger scope.parent scope.trigger)
  | unknownStart (hopen : s.closed = false)
      (hscope : ∀ scope, d.scope = some scope → s.Supports scope)
      (h : s.program.statement? d.query.edge.start = none) :
      s.Refuses d (.unknownStatement d.query.edge.start)
  | unknownTarget {start : Statement} (hopen : s.closed = false)
      (hscope : ∀ scope, d.scope = some scope → s.Supports scope)
      (hstart : s.program.statement? d.query.edge.start = some start)
      (h : s.program.statement? d.query.edge.target = none) :
      s.Refuses d (.unknownStatement d.query.edge.target)

namespace Coherent

variable {q : Query} {stores : List FactStore} {store : FactStore}

theorem mem_storesOf?_iff (hs : s.Coherent) (h : s.storesOf? q = some stores) :
    store ∈ stores ↔ s.HasRun q store := by
  cases q with
  | forward q =>
    obtain ⟨history, hq, rfl⟩ := Option.map_eq_some_iff.1 h
    simp only [HasRun, recordedStore?, hq, Option.bind_some, (hs.forward q history hq).mem_all_iff]
  | backward q =>
    obtain ⟨history, hq, rfl⟩ := Option.map_eq_some_iff.1 h
    simp only [HasRun, recordedStore?, hq, Option.bind_some, List.mem_map,
      (hs.backward q history hq).mem_all_iff, Option.map_eq_some_iff]
    constructor
    · rintro ⟨run, ⟨seeds, hfind⟩, rfl⟩
      exact ⟨seeds, run, hfind, rfl⟩
    · rintro ⟨seeds, run, hfind, rfl⟩
      exact ⟨run, ⟨seeds, hfind⟩, rfl⟩

theorem exists_mem_storesOf? (hs : s.Coherent) (h : s.storesOf? q = some stores) :
    ∃ store, store ∈ stores := by
  cases q with
  | forward q =>
    obtain ⟨history, hq, rfl⟩ := Option.map_eq_some_iff.1 h
    exact (hs.forward q history hq).exists_mem_all
  | backward q =>
    obtain ⟨history, hq, rfl⟩ := Option.map_eq_some_iff.1 h
    obtain ⟨run, hrun⟩ := (hs.backward q history hq).exists_mem_all
    exact ⟨run.store, List.mem_map_of_mem hrun⟩

/-- A query without stores has no runs. -/
theorem storesOf?_eq_none_iff (hs : s.Coherent) :
    s.storesOf? q = none ↔ ∀ store, ¬ s.HasRun q store := by
  constructor
  · rintro h store ⟨seeds, hstore⟩
    cases q with
    | forward q =>
      rw [recordedStore?, Option.map_eq_none_iff.1 h] at hstore
      cases hstore
    | backward q =>
      rw [recordedStore?, Option.map_eq_none_iff.1 h] at hstore
      cases hstore
  · intro h
    rw [Option.eq_none_iff_forall_ne_some]
    intro stores hstores
    obtain ⟨store, hmem⟩ := hs.exists_mem_storesOf? hstores
    exact h store ((hs.mem_storesOf?_iff hstores).1 hmem)

/-- The parent of a supported scope has reached the trigger under some call string. -/
theorem exists_mem_reachedUnder_iff (hs : s.Coherent) {c : Cell} :
    (∃ context, context ∈ s.reachedUnder q c) ↔ s.Supports ⟨q, c⟩ := by
  simp only [reachedUnder, mem_foldr_contextsOf, Supports,
    FactStore.mem_table_iff_exists_mem_contextsOf]
  cases h : s.storesOf? q with
  | none => simp [hs.storesOf?_eq_none_iff.1 h]
  | some stores =>
    simp only [Option.getD_some, hs.mem_storesOf?_iff h]
    constructor
    · rintro ⟨context, store, hrun, hcontext⟩
      exact ⟨store, hrun, context, hcontext⟩
    · rintro ⟨store, hrun, context, hcontext⟩
      exact ⟨context, store, hrun, hcontext⟩

/-- A supported scope gives a solve its seeds. -/
theorem exists_scopeSeeds (hs : s.Coherent) {scope : Scope} (h : s.Supports scope) (q : Query) :
    ∃ seeds, s.scopeSeeds q scope = .ok seeds := by
  obtain ⟨context, hcontext⟩ := hs.exists_mem_reachedUnder_iff.2 h
  exact ⟨_, scopeSeeds_of_mem_reachedUnder hcontext q⟩

theorem scopeSeeds_of_no_run (hs : s.Coherent) {scope : Scope}
    (h : ∀ store, ¬ s.HasRun scope.parent store) (q : Query) :
    s.scopeSeeds q scope = .error (.unknownParent q scope.parent) := by
  rw [scopeSeeds, hs.storesOf?_eq_none_iff.2 h]
  rfl

theorem scopeSeeds_of_unsupported (hs : s.Coherent) {scope : Scope} {store : FactStore}
    (hrun : s.HasRun scope.parent store) (h : ¬ s.Supports scope) (q : Query) :
    s.scopeSeeds q scope = .error (.unknownTrigger scope.parent scope.trigger) := by
  have hstores : (s.storesOf? scope.parent).isNone = false := by
    rw [Option.isNone_eq_false_iff, Option.isSome_iff_ne_none, ne_eq, hs.storesOf?_eq_none_iff]
    exact fun hall => hall store hrun
  have hempty : (s.reachedUnder scope.parent scope.trigger).isEmpty = true := by
    rw [OrderedSet.isEmpty, List.isEmpty_iff, List.eq_nil_iff_forall_not_mem]
    exact fun context hcontext => h (hs.exists_mem_reachedUnder_iff.1 ⟨context, hcontext⟩)
  simp only [scopeSeeds, hstores, hempty, Bool.false_eq_true, if_false, if_true]

theorem exists_seedsOf (hs : s.Coherent) {d : Demand}
    (h : ∀ scope, d.scope = some scope → s.Supports scope) : ∃ seeds, s.seedsOf d = .ok seeds := by
  unfold seedsOf
  cases hscope : d.scope with
  | none => exact ⟨_, rfl⟩
  | some scope => exact hs.exists_scopeSeeds (h scope hscope) d.query

/-- A demand that there is a reason to refuse is refused, and nothing has been changed. -/
theorem perform_of_refuses (hs : s.Coherent) {d : Demand} {e : SolveError} (h : s.Refuses d e) :
    perform d s = .error e s := by
  cases h with
  | closed h => exact InPlace.bind_of_error (InPlace.ask_of_error (by rw [ensureOpen, if_pos h]))
  | unknownParent hopen hscope h =>
    apply perform_of_no_seeds hopen
    simp only [seedsOf, hscope, hs.scopeSeeds_of_no_run h]
  | unknownTrigger hopen hscope hrun h =>
    apply perform_of_no_seeds hopen
    simp only [seedsOf, hscope, hs.scopeSeeds_of_unsupported hrun h]
  | unknownStart hopen hscope h =>
    obtain ⟨seeds, hseeds⟩ := hs.exists_seedsOf hscope
    rw [perform_of_seeds hopen hseeds]
    apply performFrom_error
    simp only [(ensureOpen_eq_ok s).2 hopen, checkEdge, h]
    rfl
  | unknownTarget hopen hscope hstart h =>
    obtain ⟨seeds, hseeds⟩ := hs.exists_seedsOf hscope
    rw [perform_of_seeds hopen hseeds]
    apply performFrom_error
    simp only [(ensureOpen_eq_ok s).2 hopen, checkEdge, hstart, h]
    rfl

/-- Without a reason to refuse a demand it is solved, and its query is recorded. -/
theorem refuses_or_perform (hs : s.Coherent) (hp : s.program.WellFormed) (d : Demand) :
    (∃ e, s.Refuses d e) ∨ ∃ seeds, s.closed = false ∧ s.program.Knows d.query.edge ∧
      perform d s = .ok (s.storeOf d.query seeds).table (s.after d.query seeds) := by
  cases hopen : s.closed with
  | true => exact .inl ⟨_, .closed hopen⟩
  | false =>
    by_cases hscope : ∀ scope, d.scope = some scope → s.Supports scope
    case neg =>
      obtain ⟨scope, hscope, hunsupported⟩ :
          ∃ scope, d.scope = some scope ∧ ¬ s.Supports scope := by
        simpa using hscope
      by_cases hrun : ∃ store, s.HasRun scope.parent store
      · exact .inl ⟨_, .unknownTrigger hopen hscope hrun.choose_spec hunsupported⟩
      · exact .inl ⟨_, .unknownParent hopen hscope (not_exists.1 hrun)⟩
    case pos =>
      cases hstart : s.program.statement? d.query.edge.start with
      | none => exact .inl ⟨_, .unknownStart hopen hscope hstart⟩
      | some start =>
        cases htarget : s.program.statement? d.query.edge.target with
        | none => exact .inl ⟨_, .unknownTarget hopen hscope hstart htarget⟩
        | some target =>
          have hknows : s.program.Knows d.query.edge := ⟨⟨start, hstart⟩, ⟨target, htarget⟩⟩
          obtain ⟨seeds, hseeds⟩ := hs.exists_seedsOf hscope
          refine .inr ⟨seeds, rfl, hknows, ?_⟩
          rw [perform_of_seeds hopen hseeds, performFrom_eq hp hs hopen _ hknows]

end Coherent

section Reached

variable {p : Program} {o : SolverOptions}

theorem Reached.operate (hs : Reached p o s) (hp : p.WellFormed) (op : Operation) :
    Reached p o (s.operate op) := by
  cases op with
  | close => exact hs.close
  | solve d =>
    obtain ⟨rfl, rfl, hcoh⟩ := hs.program_options hp
    rw [Session.operate]
    rcases hcoh.refuses_or_perform hp d with ⟨e, h⟩ | ⟨seeds, hopen, hknows, h⟩
    · rw [InPlace.leave_of_error (hcoh.perform_of_refuses h)]
      exact hs
    · rw [InPlace.leave_of_ok h]
      exact hs.solve (solveFrom_eq hp hcoh hopen d.query hknows seeds)

theorem Reached.operateAll (hs : Reached p o s) (hp : p.WellFormed) (ops : List Operation) :
    Reached p o (s.operateAll ops) := by
  induction ops generalizing s with
  | nil => exact hs
  | cons op ops ih => exact ih (hs.operate hp op)

end Reached

end Session

end GuidedDataflow
