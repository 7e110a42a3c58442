import GuidedDataflow.Guide.Run
import GuidedDataflow.Proofs.Guide.Agenda
import GuidedDataflow.Proofs.Solver.Tables

/-!
Runs as derivations. The loop of an analysis ends where the agenda is empty, where the query
cap forbids another solve, where a solve fails or where its bound is used up; else it solves
the first demand and goes on. What a solve brings touches the agenda only by the demands that
the matched tables spawn, and the completeness mark only by the solved table.
-/

namespace GuidedDataflow

variable {σ : Type}

namespace Backend

variable (p : Program) (s : Session)

@[simp] theorem reachability_forwardTable? (f : ForwardQuery) :
    (reachability p).forwardTable? s f = s.forwardTable? f := rfl

@[simp] theorem reachability_activeForward : (reachability p).activeForward s = s.activeForward :=
  rfl

end Backend

theorem Setup.mem_forwardTables {b : Backend σ} {s : σ} {queries : List ForwardQuery}
    {m : Matched} : m ∈ forwardTables b s queries ↔
      ∃ f ∈ queries, ∃ t, b.forwardTable? s f = some t ∧ m = ⟨.forward f, .forward, t⟩ := by
  simp only [forwardTables, List.mem_filterMap, Option.map_eq_some_iff, eq_comm (a := m)]

/-- The demands that a solve of `q` with the table `t` gives rise to, in order. -/
def Setup.demands (u : Setup) (b : Backend σ) (s : σ) (q : Query) (t : Table) : List Demand :=
  (u.matched b s q t).flatMap fun m =>
    (u.spawns m).map fun x => .within x.2.query x.2.trigger m.parent

namespace Progress

variable (p : Progress)

theorem agenda_enqueue (parent : Query) (source : SpawnSource) (spawn : Spawn) :
    (p.enqueue parent source spawn).agenda =
      p.agenda.push (.within spawn.query spawn.trigger parent) := by
  simp only [enqueue]
  split <;> rfl

theorem complete_enqueue (parent : Query) (source : SpawnSource) (spawn : Spawn) :
    (p.enqueue parent source spawn).complete = p.complete := by
  simp only [enqueue]
  split <;> rfl

theorem agenda_absorb (u : Setup) (m : Matched) :
    (p.absorb u m).agenda = p.agenda.pushAll
      ((u.spawns m).map fun x => .within x.2.query x.2.trigger m.parent) := by
  unfold absorb
  induction u.spawns m generalizing p with
  | nil => rfl
  | cons x spawns ih => rw [List.foldl_cons, ih, agenda_enqueue, List.map_cons, Agenda.pushAll_cons]

theorem complete_absorb (u : Setup) (m : Matched) : (p.absorb u m).complete = p.complete := by
  unfold absorb
  induction u.spawns m generalizing p with
  | nil => rfl
  | cons x spawns ih => rw [List.foldl_cons, ih, complete_enqueue]

theorem agenda_foldl_absorb (u : Setup) (ms : List Matched) :
    (ms.foldl (·.absorb u ·) p).agenda = p.agenda.pushAll (ms.flatMap fun m =>
      (u.spawns m).map fun x => .within x.2.query x.2.trigger m.parent) := by
  induction ms generalizing p with
  | nil => rfl
  | cons m ms ih =>
    rw [List.foldl_cons, ih, agenda_absorb, List.flatMap_cons, Agenda.pushAll_append]

theorem complete_foldl_absorb (u : Setup) (ms : List Matched) :
    (ms.foldl (·.absorb u ·) p).complete = p.complete := by
  induction ms generalizing p with
  | nil => rfl
  | cons m ms ih => rw [List.foldl_cons, ih, complete_absorb]

theorem agenda_afterSolve (u : Setup) (b : Backend σ) (s : σ) (d : Demand) (t : Table) :
    (p.afterSolve u b s d t).agenda = p.agenda.pushAll (u.demands b s d.query t) :=
  agenda_foldl_absorb _ _ _

theorem complete_afterSolve (u : Setup) (b : Backend σ) (s : σ) (d : Demand) (t : Table) :
    (p.afterSolve u b s d t).complete = (p.complete && t.complete) :=
  complete_foldl_absorb _ _ _

/-- The first demand taken off the agenda, which goes on with `rest`. -/
def popped (rest : List Demand) : Progress := { p with agenda := { p.agenda with queue := rest } }

end Progress

namespace Setup

/-- The loop from a session and a progress: with so much fuel it makes these solves and calls
and ends with this result. -/
inductive Trace (u : Setup) (b : Backend σ) : Nat → σ → Progress → List (Solved σ) →
    List BackendCall → Except RunError Report → Prop
  | done {fuel : Nat} {s : σ} {p : Progress} (queue : p.agenda.queue = []) :
      Trace u b fuel s p [] [] (.ok p.report)
  | capped {fuel : Nat} {s : σ} {p : Progress} {d : Demand} {rest : List Demand}
      (queue : p.agenda.queue = d :: rest) (cap : p.capReached u.config = true) :
      Trace u b fuel s p [] [] (.ok p.skipRest.report)
  | exhausted {s : σ} {p : Progress} {d : Demand} {rest : List Demand}
      (queue : p.agenda.queue = d :: rest) (cap : p.capReached u.config = false) :
      Trace u b 0 s p [] [] (.error .unbounded)
  | failed {fuel : Nat} {s : σ} {p : Progress} {d : Demand} {rest : List Demand} {e : SolveError}
      (queue : p.agenda.queue = d :: rest) (cap : p.capReached u.config = false)
      (fails : b.solve s d = .error e) :
      Trace u b (fuel + 1) s p [] [.solve d] (.error (.solver e))
  | solved {fuel : Nat} {s s' : σ} {p : Progress} {d : Demand} {rest : List Demand} {t : Table}
      {later : List (Solved σ)} {calls : List BackendCall} {result : Except RunError Report}
      (queue : p.agenda.queue = d :: rest) (cap : p.capReached u.config = false)
      (solves : b.solve s d = .ok (t, s'))
      (next : Trace u b fuel s' ((p.popped rest).afterSolve u b s' d t) later calls result) :
      Trace u b (fuel + 1) s p (⟨d, t, s'⟩ :: later) (.solve d :: calls) result

theorem trace_loop (u : Setup) (b : Backend σ) (fuel : Nat) (s : σ) (p : Progress) :
    u.Trace b fuel s p (u.loop b fuel s p).1 (u.loop b fuel s p).2.1 (u.loop b fuel s p).2.2 := by
  induction fuel generalizing s p with
  | zero =>
    unfold loop
    cases hqueue : p.agenda.queue with
    | nil =>
      simp only [Agenda.pop?, hqueue]
      exact .done hqueue
    | cons d rest =>
      cases hcap : p.capReached u.config with
      | true =>
        simp only [Agenda.pop?, hqueue, if_true]
        exact .capped hqueue hcap
      | false =>
        simp only [Agenda.pop?, hqueue, Bool.false_eq_true, if_false]
        exact .exhausted hqueue hcap
  | succ fuel ih =>
    unfold loop
    cases hqueue : p.agenda.queue with
    | nil =>
      simp only [Agenda.pop?, hqueue]
      exact .done hqueue
    | cons d rest =>
      cases hcap : p.capReached u.config with
      | true =>
        simp only [Agenda.pop?, hqueue, if_true]
        exact .capped hqueue hcap
      | false =>
        simp only [Agenda.pop?, hqueue, Bool.false_eq_true, if_false]
        cases hsolve : b.solve s d with
        | error e => exact .failed hqueue hcap hsolve
        | ok r => exact .solved hqueue hcap hsolve (ih r.2 _)

/-- The loop has no other trace than its own. -/
theorem Trace.loop_eq {u : Setup} {b : Backend σ} {fuel : Nat} {s : σ} {p : Progress}
    {solved : List (Solved σ)} {calls : List BackendCall} {result : Except RunError Report}
    (h : u.Trace b fuel s p solved calls result) : u.loop b fuel s p = (solved, calls, result) := by
  induction h with
  | done queue =>
    unfold loop
    simp only [Agenda.pop?, queue]
  | capped queue cap =>
    unfold loop
    simp only [Agenda.pop?, queue, cap, if_true]
  | exhausted queue cap =>
    unfold loop
    simp only [Agenda.pop?, queue, cap, Bool.false_eq_true, if_false]
  | failed queue cap fails =>
    unfold loop
    simp only [Agenda.pop?, queue, cap, fails, Bool.false_eq_true, if_false]
  | solved queue cap solves _ ih =>
    unfold loop
    simp only [Progress.popped] at ih
    simp only [Agenda.pop?, queue, cap, solves, ih, Bool.false_eq_true, if_false]

/-- A report marked complete comes of a run whose solves were all complete. -/
theorem Trace.complete_of_report {u : Setup} {b : Backend σ} {fuel : Nat} {s : σ} {p : Progress}
    {solved : List (Solved σ)} {calls : List BackendCall} {result : Except RunError Report}
    (h : u.Trace b fuel s p solved calls result) {report : Report} (hresult : result = .ok report)
    (hc : report.complete = true) :
    p.complete = true ∧ ∀ sol ∈ solved, sol.table.complete = true := by
  induction h with
  | done =>
    cases hresult
    exact ⟨hc, fun sol h => by cases h⟩
  | capped =>
    cases hresult
    cases hc
  | exhausted => cases hresult
  | failed => cases hresult
  | solved _ _ _ _ ih =>
    obtain ⟨hnext, hlater⟩ := ih hresult
    rw [Progress.complete_afterSolve, Bool.and_eq_true] at hnext
    exact ⟨hnext.1, List.forall_mem_cons.2 ⟨hnext.2, hlater⟩⟩

/-- In a run that ends with a report every solve has succeeded. -/
theorem Trace.calls_of_report {u : Setup} {b : Backend σ} {fuel : Nat} {s : σ} {p : Progress}
    {solved : List (Solved σ)} {calls : List BackendCall} {result : Except RunError Report}
    (h : u.Trace b fuel s p solved calls result) {report : Report} (hresult : result = .ok report) :
    calls = solved.map fun sol => .solve sol.demand := by
  induction h with
  | done => rfl
  | capped => rfl
  | exhausted => cases hresult
  | failed => cases hresult
  | solved _ _ _ _ ih => rw [ih hresult, List.map_cons]

end Setup

namespace Config

theorem checkLimit_eq_ok {field : LimitField} {value : Nat} :
    checkLimit field value = .ok () ↔ field.holds value := by
  unfold checkLimit
  split
  · next h => exact ⟨fun _ => h, fun _ => rfl⟩
  · next h => exact ⟨fun heq => (nomatch heq), fun hholds => (h hholds).elim⟩

theorem limits_of_validate {c : Config} (h : c.validate = .ok ()) :
    1 ≤ c.solverTimeoutMs ∧ 1 ≤ c.maxCallDepth := by
  unfold validate at h
  cases htimeout : checkLimit .solverTimeout c.solverTimeoutMs with
  | error e =>
    rw [htimeout] at h
    cases h
  | ok =>
    cases hdepth : checkLimit .callDepth c.maxCallDepth with
    | error e =>
      rw [htimeout, hdepth] at h
      cases h
    | ok => exact ⟨(checkLimit_eq_ok.1 htimeout).1, (checkLimit_eq_ok.1 hdepth).1⟩

end Config

namespace Setup

variable {u : Setup}

theorem run_of_refused {b : Backend σ} {initial : Query} {e : ConfigError}
    (h : u.config.validate = .error e) : u.run b initial = ⟨[], [], .error (.config e)⟩ := by
  unfold run
  rw [h]

theorem run_of_unopened {b : Backend σ} {initial : Query} {e : SolveError}
    (hv : u.config.validate = .ok ()) (h : b.start u.config.solverOptions = .error e) :
    u.run b initial = ⟨[.start u.config.solverOptions], [], .error (.solver e)⟩ := by
  unfold run
  simp only [hv, h]

/-- A run over a backend that opens a session is a trace. -/
theorem trace_run {b : Backend σ} {s : σ} (hv : u.config.validate = .ok ())
    (hs : b.start u.config.solverOptions = .ok s) (initial : Query) :
    ∃ calls, (u.run b initial).calls = .start u.config.solverOptions :: calls ++ [.close] ∧
      u.Trace b (solveBound u.program b.siteBound) s (.start u.config.visitedPolicy initial)
        (u.run b initial).solved calls (u.run b initial).result := by
  have hrun := trace_loop u b (solveBound u.program b.siteBound) s
    (.start u.config.visitedPolicy initial)
  unfold run
  rw [hv]
  simp only [hs]
  exact ⟨_, rfl, hrun⟩

/-- A trace from the session that the backend opens is the run. -/
theorem Trace.run_eq {b : Backend σ} {s : σ} {initial : Query} (hv : u.config.validate = .ok ())
    (hs : b.start u.config.solverOptions = .ok s) {solved : List (Solved σ)}
    {calls : List BackendCall} {result : Except RunError Report}
    (h : u.Trace b (solveBound u.program b.siteBound) s (.start u.config.visitedPolicy initial)
      solved calls result) :
    u.run b initial = ⟨.start u.config.solverOptions :: calls ++ [.close], solved, result⟩ := by
  unfold run
  rw [hv]
  simp only [hs, h.loop_eq]

/-- A run that ends with a report has a valid configuration and a session. -/
theorem opens_of_report {b : Backend σ} {initial : Query} {report : Report}
    (h : (u.run b initial).result = .ok report) :
    u.config.validate = .ok () ∧ ∃ s, b.start u.config.solverOptions = .ok s := by
  cases hv : u.config.validate with
  | error e =>
    rw [run_of_refused hv] at h
    cases h
  | ok =>
    cases hs : b.start u.config.solverOptions with
    | error e =>
      rw [run_of_unopened hv hs] at h
      cases h
    | ok s => exact ⟨rfl, s, rfl⟩

/-- A run that ends with a report is a trace from a session that the backend opened. -/
theorem trace_of_report {b : Backend σ} {initial : Query} {report : Report}
    (h : (u.run b initial).result = .ok report) :
    ∃ s calls, u.Trace b (solveBound u.program b.siteBound) s
      (.start u.config.visitedPolicy initial) (u.run b initial).solved calls
      (u.run b initial).result := by
  obtain ⟨hv, s, hs⟩ := opens_of_report h
  obtain ⟨calls, -, htrace⟩ := trace_run hv hs initial
  exact ⟨s, calls, htrace⟩

/-- A run that ends with a report has made no other calls than for its solves. -/
theorem run_eq_of_report {b : Backend σ} {initial : Query} {report : Report}
    (h : (u.run b initial).result = .ok report) : u.run b initial =
      ⟨.start u.config.solverOptions ::
          ((u.run b initial).solved.map fun sol => .solve sol.demand) ++ [.close],
        (u.run b initial).solved, .ok report⟩ := by
  obtain ⟨hv, s, hs⟩ := opens_of_report h
  obtain ⟨calls, -, htrace⟩ := trace_run hv hs initial
  rw [htrace.calls_of_report h, h] at htrace
  exact htrace.run_eq hv hs

/-- The session that an analysis opens. -/
def opened (u : Setup) : Session := ⟨u.program, u.config.solverOptions, ∅, ∅, false⟩

theorem ready_opened (u : Setup) : u.opened.Ready u.program u.config.solverOptions :=
  ⟨rfl, rfl, .empty .., rfl⟩

theorem start_opened (hv : u.config.validate = .ok ()) :
    Session.start u.program u.config.solverOptions = .ok u.opened := by
  have hdepth := (Config.limits_of_validate hv).2
  have hne : u.config.solverOptions.maxCallDepth ≠ 0 := by
    show u.config.maxCallDepth ≠ 0
    omega
  unfold Session.start
  rw [if_neg hne]
  rfl

theorem validate_of_analyze {initial : Query} {report : Report}
    (h : (u.analyze initial).result = .ok report) :
    u.config.validate = .ok () :=
  (opens_of_report h).1

/-- An analysis is a trace of the reachability solver. -/
theorem trace_analyze (hv : u.config.validate = .ok ()) (initial : Query) :
    ∃ calls, (u.analyze initial).calls = .start u.config.solverOptions :: calls ++ [.close] ∧
      u.Trace (.reachability u.program)
        (solveBound u.program (Backend.reachability u.program).siteBound) u.opened
        (.start u.config.visitedPolicy initial) (u.analyze initial).solved calls
        (u.analyze initial).result :=
  trace_run hv (start_opened hv) initial

end Setup

end GuidedDataflow
