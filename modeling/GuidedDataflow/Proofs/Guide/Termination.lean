import Mathlib.Data.List.Dedup
import GuidedDataflow.Proofs.Guide.Closure

/-!
Every run ends. Each solve takes up a key that has not been seen before, and the keys that a
run can come by are finitely many. Under query identity they are those of the initial query
and of the queries that calls of the program give rise to, whatever the backend answers. Within
scope the parents count as well, and over the reachability solver they are finitely many too.
-/

namespace GuidedDataflow

variable {σ : Type}

/-- Whether the call asks for a solve. -/
def BackendCall.isSolve : BackendCall → Bool
  | solve _ => true
  | _ => false

namespace Setup

/-- So many rounds of the loop, each with a solve that succeeds, lead from one session and
progress to another. -/
inductive Iterates (u : Setup) (b : Backend σ) : Nat → σ → Progress → σ → Progress → Prop
  | refl {s : σ} {p : Progress} : Iterates u b 0 s p s p
  | solve {n : Nat} {s s' last : σ} {p final : Progress} {d : Demand} {rest : List Demand}
      {t : Table} (queue : p.agenda.queue = d :: rest) (cap : p.capReached u.config = false)
      (solves : b.solve s d = .ok (t, s'))
      (later : Iterates u b n s' ((p.popped rest).afterSolve u b s' d t) last final) :
      Iterates u b (n + 1) s p last final

/-- A condition that allows for so many more solves and is kept by each with one less. -/
structure Countdown (u : Setup) (b : Backend σ) (holds : Nat → σ → Progress → Prop) : Prop where
  idle : ∀ {s : σ} {p : Progress}, holds 0 s p → p.agenda.queue = []
  solve : ∀ {n : Nat} {s s' : σ} {p : Progress} {d : Demand} {rest : List Demand} {t : Table},
    holds (n + 1) s p → p.agenda.queue = d :: rest → b.solve s d = .ok (t, s') →
      holds n s' ((p.popped rest).afterSolve u b s' d t)

namespace Countdown

variable {u : Setup} {b : Backend σ} {holds : Nat → σ → Progress → Prop} {n : Nat} {s : σ}
  {p : Progress}

theorem pos (hc : u.Countdown b holds) (h : holds n s p) {d : Demand} {rest : List Demand}
    (hqueue : p.agenda.queue = d :: rest) : ∃ m, n = m + 1 := by
  cases n with
  | zero => cases (hc.idle h).symm.trans hqueue
  | succ m => exact ⟨m, rfl⟩

theorem iterates_le (hc : u.Countdown b holds) (h : holds n s p) {rounds : Nat} {last : σ}
    {final : Progress} (hrun : u.Iterates b rounds s p last final) : rounds ≤ n := by
  induction hrun generalizing n with
  | refl => exact Nat.zero_le n
  | solve queue _ solves _ ih =>
    obtain ⟨m, rfl⟩ := hc.pos h queue
    exact Nat.succ_le_succ (ih (hc.solve h queue solves))

theorem trace_le (hc : u.Countdown b holds) (h : holds n s p) {fuel : Nat} (hfuel : n ≤ fuel)
    {solved : List (Solved σ)} {calls : List BackendCall} {result : Except RunError Report}
    (htrace : u.Trace b fuel s p solved calls result) :
    result ≠ .error .unbounded ∧ calls.length ≤ n := by
  induction htrace generalizing n with
  | done => exact ⟨fun h => (nomatch h), Nat.zero_le n⟩
  | capped => exact ⟨fun h => (nomatch h), Nat.zero_le n⟩
  | exhausted queue =>
    obtain ⟨m, rfl⟩ := hc.pos h queue
    omega
  | failed queue =>
    obtain ⟨m, rfl⟩ := hc.pos h queue
    exact ⟨fun h => (nomatch h), Nat.succ_le_succ (Nat.zero_le m)⟩
  | solved queue _ solves _ ih =>
    obtain ⟨m, rfl⟩ := hc.pos h queue
    obtain ⟨hresult, hcalls⟩ := ih (hc.solve h queue solves) (Nat.le_of_succ_le_succ hfuel)
    exact ⟨hresult, Nat.succ_le_succ hcalls⟩

end Countdown

variable {u : Setup} {initial : Query}

/-- Whatever a backend answers, the demands that arise ask spawnable queries. -/
theorem query_mem_spawnable (hp : u.program.WellFormed) {b : Backend σ} {s : σ} {q : Query}
    {t : Table} {d : Demand} (h : d ∈ u.demands b s q t) : d.query ∈ spawnable u.program := by
  obtain ⟨m, -, hd⟩ := List.mem_flatMap.1 h
  obtain ⟨x, hx, rfl⟩ := List.mem_map.1 hd
  exact (of_mem_spawns hp hx).1

/-- The number of different queries that calls of the program give rise to, and the initial
one. -/
def queryBound (p : Program) : Nat := 1 + (spawnable p).dedup.length

theorem queryBound_le_solveBound (p : Program) (siteBound : Nat) :
    queryBound p ≤ solveBound p siteBound := by
  have hdedup := (List.dedup_sublist (spawnable p)).length_le
  unfold queryBound solveBound
  calc 1 + (spawnable p).dedup.length ≤ ((spawnable p).length + 1) * 1 := by omega
    _ ≤ _ := Nat.mul_le_mul_left _ (by omega)

/-- The keys under query identity. -/
def identityKeys (u : Setup) (initial : Query) : List DemandKey :=
  (initial :: (spawnable u.program).dedup).map fun q => ⟨q, none⟩

theorem length_identityKeys (u : Setup) (initial : Query) :
    (u.identityKeys initial).length = queryBound u.program := by
  rw [identityKeys, queryBound, List.length_map, List.length_cons, Nat.add_comm]

theorem countdown_identity (hp : u.program.WellFormed) (b : Backend σ) (initial : Query) :
    u.Countdown b fun n _ p => p.agenda.policy = .queryIdentity ∧
      p.agenda.Fits (u.identityKeys initial) (queryBound u.program) n where
  idle h := List.length_eq_zero_iff.1
    (Nat.le_zero.1 (h.2.queue_length_le (length_identityKeys u initial).le))
  solve := by
    rintro n s s' p d rest t ⟨hpolicy, hfits⟩ hqueue -
    have hkeys : ∀ e ∈ u.demands b s' d.query t,
        p.agenda.policy.key e ∈ u.identityKeys initial := by
      intro e he
      rw [hpolicy]
      exact List.mem_map_of_mem
        (List.mem_cons_of_mem _ (List.mem_dedup.2 (query_mem_spawnable hp he)))
    rw [Progress.agenda_afterSolve, Agenda.policy_pushAll]
    exact ⟨hpolicy, hfits.pushAll hqueue hkeys⟩

theorem fits_identity (u : Setup) (initial : Query) :
    (Progress.start .queryIdentity initial).agenda.Fits (u.identityKeys initial)
      (queryBound u.program) (queryBound u.program) := by
  have hvisited : (Progress.start .queryIdentity initial).agenda.visited = [⟨initial, none⟩] := rfl
  refine ⟨?_, fun k hk => ?_, ?_⟩
  · rw [hvisited]
    exact List.nodup_singleton _
  · rw [hvisited, List.mem_singleton] at hk
    exact hk ▸ List.mem_map_of_mem List.mem_cons_self
  · exact Nat.le_refl _

theorem countdown_reachability (hp : u.program.WellFormed) (initial : Query) :
    u.Countdown (.reachability u.program) (u.Sound initial) where
  idle h := List.length_eq_zero_iff.1
    (Nat.le_zero.1 (h.fits.queue_length_le (length_keys_le u initial)))
  solve h hqueue hsolve := h.solved hp hqueue hsolve

theorem iterates_opened_le (hp : u.program.WellFormed) {n : Nat} {last : Session}
    {final : Progress} (h : u.Iterates (.reachability u.program) n u.opened
      (.start u.config.visitedPolicy initial) last final) : n ≤ u.bound := by
  rcases u.program.knows_or_lacks initial.edge with hknows | ⟨id, hlacks⟩
  · exact (countdown_reachability hp initial).iterates_le (sound_start hknows) h
  · cases h with
    | refl => exact Nat.zero_le _
    | solve queue _ solves =>
      obtain ⟨rfl, -⟩ := List.cons.inj queue
      have hrefused : u.opened.solve (.topLevel initial) = .ok _ := solves
      rw [refused_of_lacks hlacks] at hrefused
      cases hrefused

theorem eq_opened_of_start {s : Session}
    (h : Session.start u.program u.config.solverOptions = .ok s) : s = u.opened := by
  unfold Session.start at h
  split at h
  · cases h
  · cases h
    rfl

theorem analyze_ends (hp : u.program.WellFormed) (initial : Query) :
    (u.analyze initial).result ≠ .error .unbounded := by
  cases hv : u.config.validate with
  | error e =>
    rw [analyze, run_of_refused hv]
    simp
  | ok =>
    rcases u.program.knows_or_lacks initial.edge with hknows | ⟨id, hlacks⟩
    · obtain ⟨calls, -, htrace⟩ := trace_analyze hv initial
      obtain ⟨report, hreport⟩ := htrace.reports hp (sound_start hknows)
      rw [hreport]
      simp
    · rw [result_of_lacks hv hlacks]
      simp

theorem run_ends_identity (hp : u.program.WellFormed)
    (hpolicy : u.config.visitedPolicy = .queryIdentity) (b : Backend σ) (initial : Query) :
    (u.run b initial).result ≠ .error .unbounded ∧
      (u.run b initial).calls.countP BackendCall.isSolve ≤ queryBound u.program := by
  cases hv : u.config.validate with
  | error e =>
    rw [run_of_refused hv]
    exact ⟨fun h => (nomatch h), Nat.zero_le _⟩
  | ok =>
    cases hs : b.start u.config.solverOptions with
    | error e =>
      rw [run_of_unopened hv hs]
      exact ⟨fun h => (nomatch h), Nat.zero_le _⟩
    | ok s =>
      obtain ⟨calls, hcalls, htrace⟩ := trace_run hv hs initial
      rw [hpolicy] at htrace
      obtain ⟨hresult, hlength⟩ := (countdown_identity hp b initial).trace_le
        ⟨rfl, fits_identity u initial⟩ (queryBound_le_solveBound _ _) htrace
      refine ⟨hresult, ?_⟩
      calc (u.run b initial).calls.countP BackendCall.isSolve
          = calls.countP BackendCall.isSolve := by
            rw [hcalls, List.cons_append, List.countP_cons, List.countP_append]
            rfl
        _ ≤ calls.length := List.countP_le_length
        _ ≤ queryBound u.program := hlength

end Setup

end GuidedDataflow
