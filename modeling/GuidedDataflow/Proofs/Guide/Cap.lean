import GuidedDataflow.Proofs.Guide.Accounts
import GuidedDataflow.Proofs.Guide.Sites

/-!
What the query cap does to a run. The loop reads the cap only where it has taken a demand off the
agenda, and compares it with the solves made so far. Up to there a capped run goes as the uncapped
one does. So it makes the first solves of that one, and either ends as it does or leaves at least
one demand unsolved.
-/

namespace GuidedDataflow

variable {σ : Type}

namespace Setup

/-- The setup with room for so many solves. -/
def withCap (u : Setup) (n : Nat) : Setup := { u with config := { u.config with maxQueries := n } }

variable {u : Setup} {b : Backend σ} {initial : Query} {report : Report} {n : Nat}

/-- The cap is reached once so many solves have been made. -/
theorem capReached_withCap (u : Setup) (hn : 1 ≤ n) (p : Progress) :
    p.capReached (u.withCap n).config = decide (n ≤ p.statistics.totalSolved) := by
  have hpos : decide (n > 0) = true := decide_eq_true hn
  show (decide (n > 0) && decide (n ≤ p.statistics.totalSolved)) = _
  rw [hpos, Bool.true_and]

/-- A run that ends with a report, made again with room for `n` solves from where `done` have been
made: it makes the first ones for which there is room, and skips a query if and only if there
were more. -/
theorem Trace.take_withCap {fuel : Nat} {s : σ} {p : Progress} {solved : List (Solved σ)}
    {calls : List BackendCall} {result : Except RunError Report}
    (h : u.Trace b fuel s p solved calls result) (hresult : result = .ok report)
    (hfree : u.config.maxQueries = 0) (hn : 1 ≤ n) {done : List (Solved σ)}
    (haccounts : p.Accounts u.config initial done) {k : Nat} (hroom : done.length + k = n) :
    ∃ cut calls, (u.withCap n).Trace b fuel s p (solved.take k) calls (.ok cut) ∧
      (solved.length ≤ k → cut = report) ∧
      (0 < cut.statistics.queriesSkipped ↔ k < solved.length) := by
  induction h generalizing done k with
  | @done _ s p queue =>
    cases hresult
    have hnone : p.report.statistics.queriesSkipped = 0 := haccounts.skipped
    rw [List.take_nil, List.length_nil]
    refine ⟨p.report, [], .done queue, fun _ => rfl, ?_⟩
    rw [hnone]
    exact iff_of_false (Nat.lt_irrefl 0) (Nat.not_lt_zero k)
  | capped queue cap => simp [Progress.capReached, hfree] at cap
  | exhausted => cases hresult
  | failed => cases hresult
  | @solved _ s s' p d rest t later _ _ queue cap solves next ih =>
    cases k with
    | zero =>
      have hreached : p.capReached (u.withCap n).config = true := by
        rw [capReached_withCap u hn, decide_eq_true_eq, haccounts.total]
        omega
      have hskipped : p.skipRest.report.statistics.queriesSkipped = rest.length + 1 :=
        congrArg List.length queue
      refine ⟨p.skipRest.report, [], .capped queue hreached, fun hall => ?_, ?_⟩
      · cases hall
      · rw [hskipped, List.length_cons]
        exact iff_of_true (Nat.succ_pos _) (Nat.succ_pos _)
    | succ k =>
      have hopen : p.capReached (u.withCap n).config = false := by
        rw [capReached_withCap u hn, decide_eq_false_iff_not, haccounts.total]
        omega
      have hlater : (done ++ [⟨d, t, s'⟩] : List (Solved σ)).length + k = n := by
        rw [List.length_append, List.length_singleton]
        omega
      obtain ⟨cut, calls, htrace, hall, hskips⟩ :=
        ih hresult (haccounts.afterSolve queue cap b s' t) hlater
      refine ⟨cut, .solve d :: calls, .solved queue hopen solves htrace, fun hlength => ?_, ?_⟩
      · exact hall (Nat.le_of_succ_le_succ hlength)
      · rw [hskips, List.length_cons, Nat.succ_lt_succ_iff]

/-- A run that ends with a report, made again with a cap, does so too, and has solved what there
was room for. -/
theorem take_run_withCap (hfree : u.config.maxQueries = 0) (hn : 1 ≤ n)
    (hrun : (u.run b initial).result = .ok report) :
    ∃ cut, ((u.withCap n).run b initial).result = .ok cut ∧
      ((u.withCap n).run b initial).solved = (u.run b initial).solved.take n ∧
      ((u.run b initial).solved.length ≤ n → cut = report) ∧
      (0 < cut.statistics.queriesSkipped ↔ n < (u.run b initial).solved.length) ∧
      ∀ f ∈ cut.allocationSites, f ∈ report.allocationSites := by
  obtain ⟨hv, s, hs⟩ := opens_of_report hrun
  obtain ⟨_, -, hfreeTrace⟩ := trace_run hv hs initial
  obtain ⟨cut, calls, htrace, hall, hskips⟩ := hfreeTrace.take_withCap hrun hfree hn
    (.start u.config initial) (Nat.zero_add n)
  rw [Trace.run_eq (u := u.withCap n) hv hs htrace]
  refine ⟨cut, rfl, rfl, hall, hskips, fun f hf => ?_⟩
  obtain ⟨hliteral, sol, hsol, hbrings⟩ := (htrace.mem_allocationSites rfl f).1 hf
  exact (hfreeTrace.mem_allocationSites hrun f).2
    ⟨hliteral, sol, List.mem_of_mem_take hsol, hbrings⟩

/-- An analysis that ends with an error has solved nothing, and ends so under any cap. -/
theorem analyze_withCap_of_error (hp : u.program.WellFormed) {e : RunError}
    (herror : (u.analyze initial).result = .error e) (n : Nat) :
    (u.analyze initial).solved = [] ∧ (u.withCap n).analyze initial = u.analyze initial := by
  cases hv : u.config.validate with
  | error invalid =>
    have hrefused : (u.withCap n).config.validate = .error invalid := hv
    rw [analyze, run_of_refused hv, analyze, run_of_refused hrefused]
    exact ⟨rfl, rfl⟩
  | ok =>
    rcases u.program.knows_or_lacks initial.edge with hknows | ⟨id, hlacks⟩
    · obtain ⟨calls, -, htrace⟩ := trace_analyze hv initial
      obtain ⟨report, hreport⟩ := htrace.reports hp (sound_start hknows)
      rw [herror] at hreport
      cases hreport
    · have hvcap : (u.withCap n).config.validate = .ok () := hv
      rw [analyze_of_lacks hv hlacks, analyze_of_lacks (u := u.withCap n) hvcap hlacks]
      exact ⟨rfl, rfl⟩

/-- A cap makes an analysis stop after the first `n` solves of the uncapped one: it asks for these
and for nothing else. It leaves a query unsolved if and only if the uncapped one solves more; else
the two are the same, with the same report. What it reports as sites the uncapped one does too. -/
theorem analyze_cap_takes {parts : List (Signature × List Instruction)}
    (hp : Program.build parts = .ok u.program) (hfree : u.config.maxQueries = 0) (hn : 1 ≤ n)
    (initial : Query) :
    let free := u.analyze initial
    let capped := (u.withCap n).analyze initial
    capped.solved = free.solved.take n ∧ (free.solved.length ≤ n → capped = free) ∧
      ((∃ e, free.result = .error e ∧ free.solved = []) ∨
        ∃ report cut, free.result = .ok report ∧ capped.result = .ok cut ∧
          capped.calls = .start u.config.solverOptions ::
            ((free.solved.take n).map fun sol => .solve sol.demand) ++ [.close] ∧
          (0 < cut.statistics.queriesSkipped ↔ n < free.solved.length) ∧
          ∀ f ∈ cut.allocationSites, f ∈ report.allocationSites) := by
  intro free capped
  have hwf := Program.wellFormed_of_build hp
  cases hresult : free.result with
  | error e =>
    obtain ⟨hnone, hsame⟩ := analyze_withCap_of_error hwf hresult n
    have htakes : capped.solved = free.solved.take n := by
      rw [hnone, List.take_nil, ← hnone]
      exact congrArg Run.solved hsame
    exact ⟨htakes, fun _ => hsame, .inl ⟨e, rfl, hnone⟩⟩
  | ok report =>
    obtain ⟨cut, hcut, htakes, hall, hskips, hsites⟩ := take_run_withCap hfree hn hresult
    have hcapped : capped = ⟨.start u.config.solverOptions ::
        (capped.solved.map fun sol => .solve sol.demand) ++ [.close], capped.solved, .ok cut⟩ :=
      run_eq_of_report hcut
    have htakes : capped.solved = free.solved.take n := htakes
    rw [htakes] at hcapped
    refine ⟨htakes, fun hlength => ?_,
      .inr ⟨report, cut, rfl, hcut, congrArg Run.calls hcapped, hskips, hsites⟩⟩
    rw [List.take_of_length_le hlength, hall hlength] at hcapped
    exact hcapped.trans (run_eq_of_report hresult).symm

/-- Of five solves three leave queries over, and five none. -/
theorem analyze_cap_takes_exchange :
    let u := exchangeSetup .localOnly .queryInScope
    let free := u.analyze (.backward Session.relayResult)
    let capped := (u.withCap 3).analyze (.backward Session.relayResult)
    free.solved.length = 5 ∧ capped.solved = free.solved.take 3 ∧
      (∃ cut, capped.result = .ok cut ∧ 0 < cut.statistics.queriesSkipped) ∧
      (u.withCap 5).analyze (.backward Session.relayResult) = free := by
  intro u free capped
  have hp : Program.build Session.relayParts = .ok u.program := rfl
  have hfree : u.config.maxQueries = 0 := rfl
  have hlength : free.solved.length = 5 := by decide +kernel
  obtain ⟨htakes, -, hresults⟩ := analyze_cap_takes hp hfree (n := 3) (by decide)
    (.backward Session.relayResult)
  obtain ⟨-, hsame, -⟩ := analyze_cap_takes hp hfree (n := 5) (by decide)
    (.backward Session.relayResult)
  refine ⟨hlength, htakes, ?_, hsame hlength.le⟩
  rcases hresults with ⟨e, -, hnone⟩ | ⟨report, cut, -, hcut, -, hskips, -⟩
  · rw [hnone] at hlength
    cases hlength
  · exact ⟨cut, hcut, hskips.2 (hlength.symm ▸ by decide)⟩

end Setup

end GuidedDataflow
