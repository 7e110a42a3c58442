import GuidedDataflow.Proofs.Solver.LeastSolve
import GuidedDataflow.Proofs.Solver.Scope

/-!
What a session answers after any calls. Every call that succeeds is answered as a new session
answers the same query from the same seeds, whatever has been solved before. Of each query the
session shows its latest solve, where a backward solve counts as one of each site that it
finds; all else that it has solved stays out of view.
-/

namespace GuidedDataflow

open Std

/-- A solve of a query from seeds. -/
structure SolveRecord where
  query : Query
  seeds : Seeds

/-- The seeds of the last record of the query. -/
def latestSeeds? (records : List SolveRecord) (q : Query) : Option Seeds :=
  (records.reverse.find? (·.query = q)).map SolveRecord.seeds

section LatestSeeds

variable (records later : List SolveRecord) (q : Query)

@[simp] theorem latestSeeds?_nil : latestSeeds? [] q = none := rfl

theorem latestSeeds?_append : latestSeeds? (records ++ later) q =
    (latestSeeds? later q).or (latestSeeds? records q) := by
  simp [latestSeeds?, List.find?_append, Option.map_or]

theorem latestSeeds?_cons (record : SolveRecord) : latestSeeds? (record :: records) q =
    (latestSeeds? records q).or (if record.query = q then some record.seeds else none) := by
  rw [← List.singleton_append, latestSeeds?_append]
  congr 1
  by_cases h : record.query = q <;> simp [latestSeeds?, h]

variable {records q}

theorem mem_of_latestSeeds? {seeds : Seeds} (h : latestSeeds? records q = some seeds) :
    ⟨q, seeds⟩ ∈ records := by
  obtain ⟨record, hfind, rfl⟩ := Option.map_eq_some_iff.1 h
  have hquery : record.query = q := by simpa using List.find?_some hfind
  exact hquery ▸ List.mem_reverse.1 (List.mem_of_find?_eq_some hfind)

end LatestSeeds

namespace Session

variable {s : Session} {p : Program} {o : SolverOptions}

/-- The session after a call; one that is refused leaves no trace. -/
def call (s : Session) (d : Demand) : Session :=
  match s.solve d with
  | .ok (_, s') => s'
  | .error _ => s

def callAll (s : Session) (ds : List Demand) : Session := ds.foldl call s

theorem callAll_cons (s : Session) (d : Demand) (ds : List Demand) :
    s.callAll (d :: ds) = (s.call d).callAll ds := rfl

/-- The solves that a solve of the query makes: its own and, backward, that of each site it
finds, from the call strings that the site was met under. -/
def made (s : Session) (q : Query) (seeds : Seeds) : List SolveRecord :=
  match q with
  | .forward _ => [⟨q, seeds⟩]
  | .backward b =>
    let run := s.exploreBackward b seeds
    ⟨q, seeds⟩ :: run.sites.toList.map fun site => ⟨.forward site, run.contextsOf site⟩

/-- The solves that a call makes, none if it is refused. -/
def madeByCall (s : Session) (d : Demand) : List SolveRecord :=
  match s.solve d, s.seedsOf d with
  | .ok _, .ok seeds => s.made d.query seeds
  | _, _ => []

/-- The solves that the calls make, one call after another. -/
def ledger (s : Session) : List Demand → List SolveRecord
  | [] => []
  | d :: ds => s.madeByCall d ++ (s.call d).ledger ds

/-- A call either records its query from the seeds that it resolves to, or is refused. -/
theorem Ready.call_cases (hs : s.Ready p o) (hp : p.WellFormed) (d : Demand) :
    (∃ seeds, s.seedsOf d = .ok seeds ∧ s.program.Knows d.query.edge ∧
      s.solve d = .ok ((s.storeOf d.query seeds).table, s.after d.query seeds)) ∨
    ∃ e, s.solve d = .error e := by
  obtain ⟨rfl, rfl, hcoh, hopen⟩ := hs
  cases hsolve : s.solve d with
  | error e => exact .inr ⟨e, rfl⟩
  | ok r =>
    obtain ⟨seeds, hseeds, hfrom⟩ := exists_solveFrom hopen hsolve
    have hknows := (open_knows_of_solveFrom hfrom).2
    rw [solveFrom_eq hp hcoh hopen _ hknows] at hfrom
    exact .inl ⟨seeds, hseeds, hknows, hfrom.symm⟩

theorem Ready.after (hs : s.Ready p o) (q : Query) (seeds : Seeds) : (s.after q seeds).Ready p o :=
  ⟨(after_program ..).trans hs.program, (after_options ..).trans hs.options,
    hs.coherent.after q seeds, (after_closed ..).trans hs.isOpen⟩

theorem Ready.call (hs : s.Ready p o) (hp : p.WellFormed) (d : Demand) : (s.call d).Ready p o := by
  unfold Session.call
  rcases hs.call_cases hp d with ⟨seeds, -, -, hsolve⟩ | ⟨e, hsolve⟩
  · rw [hsolve]
    exact hs.after _ _
  · rw [hsolve]
    exact hs

theorem Ready.callAll (hs : s.Ready p o) (hp : p.WellFormed) (ds : List Demand) :
    (s.callAll ds).Ready p o := by
  induction ds generalizing s with
  | nil => exact hs
  | cons d ds ih => exact ih (hs.call hp d)

/-- If each recorded solve shows in a view of the session exactly where it is the latest of the
query, then so do those of all calls together. -/
theorem view_callAll {α : Type} (view : Session → Option α) {result : Seeds → α} {q : Query}
    (hp : p.WellFormed)
    (hafter : ∀ s : Session, s.Ready p o → ∀ other seeds, view (s.after other seeds) =
      ((latestSeeds? (s.made other seeds) q).map result).or (view s))
    (hs : s.Ready p o) (ds : List Demand) :
    view (s.callAll ds) = ((latestSeeds? (s.ledger ds) q).map result).or (view s) := by
  induction ds generalizing s with
  | nil => rfl
  | cons d ds ih =>
    have hcall : view (s.call d) =
        ((latestSeeds? (s.madeByCall d) q).map result).or (view s) := by
      unfold Session.call madeByCall
      rcases hs.call_cases hp d with ⟨seeds, hseeds, -, hsolve⟩ | ⟨e, hsolve⟩
      · rw [hsolve, hseeds]
        exact hafter s hs d.query seeds
      · rw [hsolve]
        rfl
    have hrest : view (s.callAll (d :: ds)) = _ := ih (hs.call hp d)
    rw [hrest, hcall, ledger, latestSeeds?_append, Option.map_or, Option.or_assoc]

section Views

variable (run : BackwardRun) (sites : List ForwardQuery)

theorem latestSeeds?_sites (f : ForwardQuery) :
    latestSeeds? (sites.map fun site => ⟨.forward site, run.contextsOf site⟩) (.forward f) =
      if f ∈ sites then some (run.contextsOf f) else none := by
  induction sites with
  | nil => rfl
  | cons site sites ih =>
    rw [List.map_cons, latestSeeds?_cons, ih]
    by_cases hlater : f ∈ sites
    · rw [if_pos hlater, if_pos (List.mem_cons_of_mem _ hlater)]
      rfl
    · by_cases heq : site = f
      · subst heq
        simp [hlater]
      · simp [hlater, heq, Ne.symm heq]

theorem latestSeeds?_sites_backward (b : BackwardQuery) :
    latestSeeds? (sites.map fun site => ⟨.forward site, run.contextsOf site⟩) (.backward b) =
      none := by
  induction sites with
  | nil => rfl
  | cons site sites ih =>
    rw [List.map_cons, latestSeeds?_cons, ih]
    rfl

end Views

/-- The latest run of a backward query. -/
def latestRun? (s : Session) (b : BackwardQuery) : Option BackwardRun :=
  s.backward[b]?.bind History.latest?

theorem allocationSites_congr {s s' : Session} {b : BackwardQuery}
    (h : s.latestRun? b = s'.latestRun? b) : s.allocationSites b = s'.allocationSites b := by
  unfold latestRun? at h
  unfold allocationSites
  rw [h]

theorem allocationSites_of_no_run {b : BackwardQuery} (h : s.latestRun? b = none) :
    s.allocationSites b = [] := by
  unfold latestRun? at h
  unfold allocationSites
  rw [h]

variable {fresh : Session}

theorem forwardTable?_after (hs : s.Ready p o) (hfresh : fresh.Ready p o) (f : ForwardQuery)
    (q : Query) (seeds : Seeds) : (s.after q seeds).forwardTable? f =
      ((latestSeeds? (s.made q seeds) (.forward f)).map fun seeds =>
        (fresh.storeOf (.forward f) seeds).table).or (s.forwardTable? f) := by
  have hstore : ∀ seeds, fresh.storeOf (.forward f) seeds = s.exploreForward f seeds := fun seeds =>
    storeOf_eq (hfresh.program.trans hs.program.symm) (hfresh.options.trans hs.options.symm) _ _
  simp only [hstore]
  cases q with
  | forward q =>
    simp only [after, forwardTable?_recordForward, made, latestSeeds?_cons, latestSeeds?_nil,
      Option.none_or, Query.forward.injEq]
    by_cases heq : q = f
    · subst heq
      simp
    · simp [heq]
  | backward b =>
    rw [forwardTable?_after_backward, made, latestSeeds?_cons, latestSeeds?_sites]
    by_cases hsite : f ∈ (s.exploreBackward b seeds).sites
    · have hlist : f ∈ (s.exploreBackward b seeds).sites.toList := hsite
      rw [if_pos hsite, if_pos hlist]
      rfl
    · have hlist : f ∉ (s.exploreBackward b seeds).sites.toList := hsite
      rw [if_neg hsite, if_neg hlist]
      rfl

theorem latestRun?_after (hs : s.Ready p o) (hfresh : fresh.Ready p o) (b : BackwardQuery)
    (q : Query) (seeds : Seeds) : (s.after q seeds).latestRun? b =
      ((latestSeeds? (s.made q seeds) (.backward b)).map (fresh.exploreBackward b)).or
        (s.latestRun? b) := by
  have hrun : fresh.exploreBackward b = s.exploreBackward b := by
    unfold exploreBackward explore
    rw [hfresh.program, hfresh.options, hs.program, hs.options]
  rw [hrun]
  cases q with
  | forward q => rfl
  | backward q =>
    simp only [made, latestSeeds?_cons, latestSeeds?_sites_backward, Option.none_or,
      Query.backward.injEq]
    by_cases heq : q = b
    · subst heq
      simp [latestRun?, latest?_after_backward]
    · simp [latestRun?, Session.after, getElem?_recordBackward, heq]

/-- From the same seeds every session over the program answers alike, also where it refuses. -/
theorem solveFrom_fst_eq (hs : s.Ready p o) (hfresh : fresh.Ready p o) (hp : p.WellFormed)
    (q : Query) (seeds : Seeds) :
    (s.solveFrom q seeds).map Prod.fst = (fresh.solveFrom q seeds).map Prod.fst := by
  obtain ⟨rfl, rfl, hcoh, hopen⟩ := hs
  obtain ⟨hprogram, hoptions, hfreshCoh, hfreshOpen⟩ := hfresh
  have hcheck : fresh.checkEdge q.edge = s.checkEdge q.edge := by
    unfold checkEdge
    rw [hprogram]
  cases hedge : s.checkEdge q.edge with
  | error e =>
    rw [solveFrom_error q seeds (by rw [(ensureOpen_eq_ok s).2 hopen, hedge]; rfl),
      solveFrom_error q seeds (by rw [(ensureOpen_eq_ok fresh).2 hfreshOpen, hcheck, hedge]; rfl)]
  | ok =>
    have hknows := (checkEdge_eq_ok s q.edge).1 hedge
    have hfreshKnows := (checkEdge_eq_ok fresh q.edge).1 (hcheck.trans hedge)
    rw [solveFrom_eq hp hcoh hopen q hknows,
      solveFrom_eq (hprogram ▸ hp) hfreshCoh hfreshOpen q hfreshKnows,
      ← storeOf_eq hprogram hoptions]
    rfl

theorem knows_of_mem_made (hp : s.program.WellFormed) {q : Query} (hq : s.program.Knows q.edge)
    {seeds : Seeds} {record : SolveRecord} (h : record ∈ s.made q seeds) :
    s.program.Knows record.query.edge := by
  cases q with
  | forward q =>
    obtain rfl := List.mem_singleton.1 h
    exact hq
  | backward b =>
    rcases List.mem_cons.1 h with rfl | hsite
    · exact hq
    · obtain ⟨site, hmem, rfl⟩ := List.mem_map.1 hsite
      exact knows_site hp hq hmem

/-- Only queries whose edges are known come to be solved. -/
theorem Ready.knows_of_mem_ledger (hs : s.Ready p o) (hp : p.WellFormed) {ds : List Demand}
    {record : SolveRecord} (h : record ∈ s.ledger ds) : p.Knows record.query.edge := by
  induction ds generalizing s with
  | nil => cases h
  | cons d ds ih =>
    rcases List.mem_append.1 h with hcall | hlater
    · unfold madeByCall at hcall
      rcases hs.call_cases hp d with ⟨seeds, hseeds, hknows, hsolve⟩ | ⟨e, hsolve⟩
      · rw [hsolve, hseeds] at hcall
        have hknown := knows_of_mem_made (hs.program.symm ▸ hp) hknows hcall
        rwa [hs.program] at hknown
      · rw [hsolve] at hcall
        cases hcall
    · exact ih (hs.call hp d) hlater

theorem Coherent.mem_activeForward_iff (hs : s.Coherent) (f : ForwardQuery) :
    f ∈ s.activeForward ↔ (s.forwardTable? f).isSome := by
  rw [activeForward, TreeMap.mem_keys, TreeMap.mem_iff_isSome_getElem?]
  unfold forwardTable?
  cases hf : s.forward[f]? with
  | none => rfl
  | some h =>
    obtain ⟨first, rest, hruns⟩ := List.exists_cons_of_ne_nil (hs.forward f h hf).ne_nil
    simp [History.latest?, hruns]

/-- The session shows of each query its latest record, as `fresh` answers it from those seeds,
and nothing of a query without a record. -/
structure Shows (s fresh : Session) (records : List SolveRecord) : Prop where
  noTable : ∀ f, latestSeeds? records (.forward f) = none → s.forwardTable? f = none
  table : ∀ f seeds, latestSeeds? records (.forward f) = some seeds →
    ∃ t s', fresh.solveFrom (.forward f) seeds = .ok (t, s') ∧ s.forwardTable? f = some t
  active : ∀ f, f ∈ s.activeForward ↔ (s.forwardTable? f).isSome
  noSites : ∀ b, latestSeeds? records (.backward b) = none → s.allocationSites b = []
  sites : ∀ b seeds, latestSeeds? records (.backward b) = some seeds →
    ∃ t s', fresh.solveFrom (.backward b) seeds = .ok (t, s') ∧
      s.allocationSites b = s'.allocationSites b

theorem shows_callAll (hfresh : fresh.Ready p o) (hp : p.WellFormed)
    (hforward : ∀ f, fresh.forwardTable? f = none) (hbackward : ∀ b, fresh.latestRun? b = none)
    (ds : List Demand) : (fresh.callAll ds).Shows fresh (fresh.ledger ds) := by
  have htable := fun f => view_callAll (·.forwardTable? f) hp
    (fun _ hs => forwardTable?_after hs hfresh f) hfresh ds
  have hrun := fun b => view_callAll (·.latestRun? b) hp
    (fun _ hs => latestRun?_after hs hfresh b) hfresh ds
  have hsolve : ∀ q seeds, latestSeeds? (fresh.ledger ds) q = some seeds →
      fresh.solveFrom q seeds = .ok ((fresh.storeOf q seeds).table, fresh.after q seeds) := by
    intro q seeds hlatest
    have hknows := hfresh.knows_of_mem_ledger hp (mem_of_latestSeeds? hlatest)
    exact solveFrom_eq (hfresh.program.symm ▸ hp) hfresh.coherent hfresh.isOpen q
      (hfresh.program.symm ▸ hknows) seeds
  constructor
  case noTable =>
    intro f hlatest
    have hnone := htable f
    rw [hlatest, hforward] at hnone
    exact hnone
  case table =>
    intro f seeds hlatest
    have hsome := htable f
    rw [hlatest] at hsome
    exact ⟨_, _, hsolve _ _ hlatest, hsome⟩
  case active => exact (hfresh.callAll hp ds).coherent.mem_activeForward_iff
  case noSites =>
    intro b hlatest
    have hnone := hrun b
    rw [hlatest, hbackward] at hnone
    exact allocationSites_of_no_run hnone
  case sites =>
    intro b seeds hlatest
    have hsome := hrun b
    rw [hlatest] at hsome
    exact ⟨_, _, hsolve _ _ hlatest,
      allocationSites_congr (hsome.trans (latest?_after_backward fresh b seeds).symm)⟩

theorem ready_of_start (hstart : Session.start p o = .ok fresh) :
    fresh.Ready p o ∧ (∀ f, fresh.forwardTable? f = none) ∧ ∀ b, fresh.latestRun? b = none := by
  unfold Session.start at hstart
  split at hstart
  · cases hstart
  · cases hstart
    exact ⟨⟨rfl, rfl, .empty .., rfl⟩, fun _ => by simp [forwardTable?],
      fun _ => by simp [latestRun?]⟩

/-- Whatever has been called before, a session answers each demand as a new one answers the
demand's query from the seeds that the demand resolves to, and shows of every query its latest
solve, also as a new session makes it. -/
theorem callAll_answers_latest {parts : List (Signature × List Instruction)}
    (hp : Program.build parts = .ok p) (hstart : Session.start p o = .ok fresh) (ds : List Demand) :
    (∀ d, ((fresh.callAll ds).solve d).map Prod.fst = ((fresh.callAll ds).seedsOf d).bind
      fun seeds => (fresh.solveFrom d.query seeds).map Prod.fst) ∧
    (fresh.callAll ds).Shows fresh (fresh.ledger ds) := by
  have hwf := Program.wellFormed_of_build hp
  obtain ⟨hfresh, hforward, hbackward⟩ := ready_of_start hstart
  refine ⟨fun d => ?_, shows_callAll hfresh hwf hforward hbackward ds⟩
  have hs := hfresh.callAll hwf ds
  rw [solve_eq hs.isOpen]
  cases (fresh.callAll ds).seedsOf d with
  | error e => rfl
  | ok seeds => exact solveFrom_fst_eq hs hfresh hwf d.query seeds

/-- The result of the call is asked for, then the constant under the call that hands it on, then
the result again. -/
def relayCalls : List Demand :=
  [.topLevel (.backward relayResult),
    .within (.forward relaySite) ⟨⟨⟨3⟩, ⟨4⟩⟩, .localVar "a" ⟨"<M: Object relay(Object)>"⟩⟩
      (.backward relayResult),
    .topLevel (.backward relayResult)]

/-- Asking for the result again brings the top-level table of the constant back into view. -/
theorem callAll_answers_latest_relay :
    latestSeeds? (relaySession.ledger (relayCalls.take 2)) (.forward relaySite) =
      some (.singleton ⟨[⟨1⟩]⟩) ∧
    latestSeeds? (relaySession.ledger relayCalls) (.forward relaySite) = some (.singleton .empty) ∧
    ∃ t s', relaySession.solveFrom (.forward relaySite) (.singleton .empty) = .ok (t, s') ∧
      (relaySession.callAll relayCalls).forwardTable? relaySite = some t := by
  have hlatest : latestSeeds? (relaySession.ledger relayCalls) (.forward relaySite) =
      some (.singleton .empty) := by decide +kernel
  have hshows := (callAll_answers_latest build_relayParts
    (rfl : Session.start relayProgram .standard = .ok relaySession) relayCalls).2
  exact ⟨by decide +kernel, hlatest, hshows.table _ _ hlatest⟩

end Session

end GuidedDataflow
