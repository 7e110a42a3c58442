import Mathlib.Algebra.BigOperators.Group.Finset.Basic
import Mathlib.Algebra.BigOperators.Ring.Finset
import Mathlib.Data.List.Dedup
import GuidedDataflow.Proofs.Solver.LeastSolve

/-!
Solves without limits end. Each fact is expanded once, and there are no more facts than edges,
values and bounded call strings can make: the steps keep to the program's edges and the query's
own, to the values that statements mention and the query's own, and to strings of the program's
calls and the sites of the seeds.
-/

namespace GuidedDataflow

/-- Strings over some sites, counted by their lengths. -/
theorem stringCount_eq_sum (sites depth : Nat) :
    stringCount sites depth = ∑ i ∈ Finset.range (depth + 1), sites ^ i := by
  induction depth with
  | zero => simp [stringCount]
  | succ depth ih =>
    rw [stringCount, ih, Finset.sum_range_succ' _ (depth + 1), Finset.mul_sum, pow_zero,
      Nat.add_comm]
    simp only [pow_succ']

/-- No string is longer than the longest one. -/
theorem longest_le {seeds : Seeds} {depth : Nat} (h : ∀ context ∈ seeds, context.depth ≤ depth) :
    longest seeds ≤ depth := by
  have key : ∀ (l : List CallString) (start : Nat), start ≤ depth → (∀ c ∈ l, c.depth ≤ depth) →
      l.foldl (fun d c => max d c.depth) start ≤ depth := by
    intro l
    induction l with
    | nil => exact fun _ hstart _ => hstart
    | cons c l ih =>
      intro start hstart hall
      exact ih _ (max_le hstart (hall c List.mem_cons_self)) fun d hd =>
        hall d (List.mem_cons_of_mem _ hd)
  exact key seeds.toList 0 (Nat.zero_le _) h

/-- The different call sites that occur in the seeds. -/
def seedSites (seeds : Seeds) : List StmtId := (seeds.toList.flatMap CallString.sites).dedup

/-- How many facts a query can reach from seeds within the depth, each edge, value and string
counted once. -/
def reachBound (p : Program) (depth : Nat) (seeds : Seeds) : Nat :=
  (p.edges.length + 1) * (p.values.dedup.length + 1) *
    ∑ i ∈ Finset.range (depth + 1), (p.calls.length + (seedSites seeds).length) ^ i

theorem Query.ncard_facts_le {p : Program} (hp : p.WellFormed) (q : Query) {depth : Nat}
    {seeds : Seeds} (hseeds : ∀ context ∈ seeds, context.depth ≤ depth) :
    (q.facts p depth seeds).ncard ≤ reachBound p depth seeds := by
  let cover := factsOver (q.cell.edge :: p.edges) (q.cell.value :: p.values.dedup)
    (p.calls ++ seedSites seeds) depth
  have hcover : ∀ f ∈ q.facts p depth seeds, f ∈ cover := by
    intro f hf
    obtain ⟨he, hv, hdepth, hsites⟩ :=
      mem_factCover.1 (mem_factCover_of_reached hp depth q.direction q.cell seeds f hf)
    refine mem_factsOver.2 ⟨he, ?_, hdepth.trans (max_le le_rfl (longest_le hseeds)), ?_⟩
    · simpa only [List.mem_cons, List.mem_dedup] using hv
    · simpa only [knownSites, seedSites, List.mem_append, List.mem_dedup] using hsites
  have hlength : cover.length = reachBound p depth seeds := by
    simp only [cover, length_factsOver, stringCount_eq_sum, List.length_cons, List.length_append,
      reachBound]
  exact hlength ▸ Exploration.ncard_reached_le hcover

namespace Exploration

variable {step : Fact → List Fact} {allows : Nat → Bool} {seeds : List Fact}

/-- Two runs that have both settled have come to the same end. -/
theorem run_eq_of_isSettled {e : Exploration} {m n : Nat}
    (hm : (run step allows m e).isSettled allows = true)
    (hn : (run step allows n e).isSettled allows = true) :
    run step allows m e = run step allows n e := by
  rcases Nat.le_total m n with hle | hle
  · obtain ⟨k, rfl⟩ := Nat.exists_eq_add_of_le hle
    rw [run_add, run_of_isSettled hm]
  · obtain ⟨k, rfl⟩ := Nat.exists_eq_add_of_le hle
    rw [run_add, run_of_isSettled hn]

section Unlimited

variable {cover : List Fact} (hcover : ∀ f ∈ reached step seeds, f ∈ cover)
  (hallows : ∀ n, allows n = true) {fuel : Nat} (hfuel : (reached step seeds).ncard ≤ fuel)
include hcover hallows hfuel

/-- Where nothing is refused, fuel for every fact lets the queue run empty. -/
theorem pending_run_eq_nil : (run step allows fuel (start seeds)).pending = [] := by
  rcases run_isSettled_or step allows fuel (start seeds) with hset | hused
  · simpa [isSettled, hallows] using hset
  · have hle := ((invariant_start step allows seeds).run fuel).length_le hcover
    exact List.length_eq_zero_iff.1 (by omega)

/-- Then the rounds come to what any such fuel comes to. -/
theorem explore_eq_run_of_fuel {rounds : Nat} (hroom : cover.length ≤ totalFuel rounds 1) :
    explore step allows rounds seeds = run step allows fuel (start seeds) := by
  have hdrained := pending_run_eq_nil hcover hallows hfuel
  have hrounds := pending_run_eq_nil hcover hallows ((ncard_reached_le hcover).trans hroom)
  rw [explore_eq_run, finish, hrounds]
  refine run_eq_of_isSettled ?_ ?_
  · rw [isSettled, hrounds]
    rfl
  · rw [isSettled, hdrained]
    rfl

end Unlimited

end Exploration

namespace Session

variable {s : Session}

/-- Without limits a solve is the run of its query with fuel for every fact. -/
theorem exploration_eq_run (hp : s.program.WellFormed) (hallows : ∀ n, s.options.allows n = true)
    (q : Query) (seeds : Seeds) {fuel : Nat}
    (hfuel : (q.facts s.program s.options.maxCallDepth seeds).ncard ≤ fuel) :
    s.exploration q seeds = Exploration.run (Flow.step s.program s.options.maxCallDepth q.direction)
      s.options.allows fuel (.start (seedFacts q.cell seeds)) :=
  Exploration.explore_eq_run_of_fuel (mem_factCover_of_reached hp _ _ _ _) hallows hfuel
    (by rw [length_factCover]; exact factBound_le_totalFuel _ _ _)

/-- Solves without limits end: from seeds within the depth the queue runs empty after no more
expansions than the bound says, and however much more fuel there is, nothing more happens. The
solve is then complete. -/
theorem solve_ends_within_bound {parts : List (Signature × List Instruction)} {p : Program}
    {o : SolverOptions} (hp : Program.build parts = .ok p) (hs : Reached p o s)
    (hopen : s.closed = false) (hsteps : o.maxPropagations = 0) (hclock : o.timeoutMs ≠ 0)
    (q : Query) (seeds : Seeds) (hseeds : ∀ context ∈ seeds, context.depth ≤ o.maxCallDepth) :
    (s.exploration q seeds).pending = [] ∧
      (s.exploration q seeds).expanded.size ≤ reachBound p o.maxCallDepth seeds ∧
      (∀ fuel, reachBound p o.maxCallDepth seeds ≤ fuel →
        Exploration.run (Flow.step p o.maxCallDepth q.direction) o.allows fuel
          (.start (seedFacts q.cell seeds)) = s.exploration q seeds) ∧
      (p.Knows q.edge → ∃ r, s.Solves q seeds r ∧ r.1.complete = true) := by
  have hwf := Program.wellFormed_of_build hp
  have hsolves := fun hq => hs.solves hwf hopen (q := q) hq seeds
  obtain ⟨rfl, rfl, -⟩ := hs.program_options hwf
  have hallows : ∀ n, s.options.allows n = true := by
    intro n
    simp [SolverOptions.allows, SolverOptions.withinSteps, SolverOptions.withinTime, hsteps, hclock]
  have hbound := Query.ncard_facts_le hwf q hseeds
  have hcover := mem_factCover_of_reached hwf s.options.maxCallDepth q.direction q.cell seeds
  have hrun := exploration_eq_run hwf hallows q seeds hbound
  have hdrained : (s.exploration q seeds).pending = [] := by
    rw [hrun]
    exact Exploration.pending_run_eq_nil hcover hallows hbound
  refine ⟨hdrained, ?_, fun fuel hfuel => ?_, fun hq => ⟨_, hsolves hq, ?_⟩⟩
  · have hle := ((Exploration.invariant_start _ s.options.allows _).run
      (reachBound s.program s.options.maxCallDepth seeds)).length_le hcover
    rw [hrun]
    exact (Nat.le_add_right _ _).trans (hle.trans hbound)
  · exact (exploration_eq_run hwf hallows q seeds (hbound.trans hfuel)).symm
  · exact (outcome_exploration s hwf q seeds).complete_iff.2 fun n _ _ => hallows n

/-- A method that calls itself in a loop: `do { b = again(a); a = b } while (..); return b`. -/
def loopParts : List (Signature × List Instruction) :=
  let again : Signature := ⟨"<M: Object again(Object)>"⟩
  [(again, [.parameter "a",
    .invoke (some (.localVar "b" again)) ⟨again, none, [.localVar "a" again]⟩,
    .assign (.localVar "a" again) (.localVar "b" again), .edge ⟨2⟩ ⟨1⟩,
    .ret (some (.localVar "b" again))])]

def loopProgram : Program := (Program.build loopParts).toOption.getD .empty

theorem build_loopParts : Program.build loopParts = .ok loopProgram := rfl

/-- Call strings have room for two sites. -/
def loopSession : Session :=
  ⟨loopProgram, { SolverOptions.standard with maxCallDepth := 2 }, ∅, ∅, false⟩

/-- What the parameter of the method is called with, from inside one known call. -/
def loopArgument : BackwardQuery := ⟨⟨⟨0⟩, ⟨1⟩⟩, .localVar "a" ⟨"<M: Object again(Object)>"⟩⟩

/-- Four edges, two values and one call leave no more than a hundred and five facts, however often
the method calls itself. -/
theorem solve_ends_within_bound_loop :
    let q : Query := .backward loopArgument
    let seeds : Seeds := .singleton ⟨[⟨1⟩]⟩
    reachBound loopProgram 2 seeds = 105 ∧ (loopSession.exploration q seeds).pending = [] ∧
      (loopSession.exploration q seeds).expanded.size ≤ 105 ∧
      ∃ r, loopSession.Solves q seeds r ∧ r.1.complete = true := by
  intro q seeds
  have hbound : reachBound loopProgram 2 seeds = 105 := by decide
  have hseeds : ∀ context ∈ seeds, context.depth ≤ 2 := by
    intro context hmem
    rw [OrderedSet.mem_singleton.1 hmem]
    decide
  obtain ⟨hdrained, hsize, -, hsolves⟩ := solve_ends_within_bound build_loopParts
    (.start rfl : Reached loopProgram loopSession.options loopSession) rfl rfl (by decide) q seeds
    hseeds
  exact ⟨hbound, hdrained, hbound ▸ hsize, hsolves ⟨⟨_, rfl⟩, ⟨_, rfl⟩⟩⟩

end Session

end GuidedDataflow
