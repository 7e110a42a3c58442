import Mathlib.Data.ENat.Lattice
import GuidedDataflow.Proofs.Solver.LeastSolve

/-!
Where the limits stop a solve. Whatever they are, a solve expands the same facts in the same order,
and the limits only decide how far it gets: to the last step that they allow, or to the last fact.
So the number of facts tells how many are expanded and whether the table is complete, and what is
recorded under one limit is recorded under every larger one.
-/

namespace GuidedDataflow

namespace SolverOptions

variable {o : SolverOptions} {n : Nat}

/-- How many steps the limits allow: as many as the step limit says, if there is one, and where no
time is given at most those before the first reading of the clock. -/
noncomputable def stepLimit (o : SolverOptions) : ℕ∞ :=
  min (if o.maxPropagations = 0 then ⊤ else (o.maxPropagations : ℕ∞))
    (if o.timeoutMs = 0 then ((clockInterval - 1 : Nat) : ℕ∞) else ⊤)

theorem affords_withinSteps_iff : Affords o.withinSteps n ↔
    (n : ℕ∞) ≤ if o.maxPropagations = 0 then ⊤ else (o.maxPropagations : ℕ∞) := by
  by_cases hfree : o.maxPropagations = 0
  · simp [Affords, withinSteps, hfree]
  · simp only [Affords, withinSteps, hfree, decide_false, Bool.false_or, decide_eq_true_eq,
      if_false, Nat.cast_le]
    constructor
    · intro hall
      by_cases hn : 0 < n
      · exact hall n hn le_rfl
      · omega
    · exact fun hle k _ hk => hk.trans hle

theorem affords_withinTime_iff : Affords o.withinTime n ↔
    (n : ℕ∞) ≤ if o.timeoutMs = 0 then ((clockInterval - 1 : Nat) : ℕ∞) else ⊤ := by
  by_cases hclock : o.timeoutMs = 0
  · have hunread : ∀ k, o.withinTime k = true ↔ k % clockInterval ≠ 0 := by
      intro k
      simp [withinTime, hclock]
    simp only [Affords, hunread, hclock, if_true, Nat.cast_le, clockInterval]
    constructor
    · intro hall
      by_contra hlate
      exact hall 64 (by omega) (by omega) rfl
    · intro hle k hk hkn
      omega
  · simp [Affords, withinTime, hclock]

/-- So many steps are allowed exactly if they are no more than the limit. -/
theorem affords_iff_le_stepLimit : Affords o.allows n ↔ (n : ℕ∞) ≤ o.stepLimit := by
  have hboth : Affords o.allows n ↔ Affords o.withinSteps n ∧ Affords o.withinTime n := by
    simp only [Affords, allows, Bool.and_eq_true, ← forall_and]
  rw [hboth, affords_withinSteps_iff, affords_withinTime_iff, stepLimit, le_min_iff]

example : stepLimit ⟨1, 8, 0⟩ = ⊤ ∧ stepLimit ⟨1, 8, 70⟩ = 70 ∧ stepLimit ⟨0, 8, 0⟩ = 63 ∧
    stepLimit ⟨0, 8, 70⟩ = 63 ∧ stepLimit ⟨0, 8, 5⟩ = 5 := by decide

/-- One step more is allowed by a step limit that is larger by one, if the clock allows it. -/
theorem stepLimit_le_succ (h : o.maxPropagations ≠ 0) :
    o.stepLimit ≤ { o with maxPropagations := o.maxPropagations + 1 }.stepLimit := by
  simp only [stepLimit, h, if_false, Nat.succ_ne_zero]
  exact min_le_min_right _ (by exact_mod_cast Nat.le_succ _)

end SolverOptions

namespace Exploration

variable {step : Fact → List Fact} {allows allows' : Nat → Bool} {seeds : List Fact}
  {e e' : Exploration}

/-- `e'` is where `e` gets to by going on: it stores what `e` stores, and its expansions begin with
those of `e`. -/
structure Extends (e e' : Exploration) : Prop where
  stored : ∀ f ∈ e.store, f ∈ e'.store
  expanded : e.expanded.toList <+: e'.expanded.toList

theorem Extends.refl (e : Exploration) : e.Extends e := ⟨fun _ hf => hf, List.prefix_rfl⟩

theorem Extends.trans {e'' : Exploration} (h : e.Extends e') (h' : e'.Extends e'') :
    e.Extends e'' :=
  ⟨fun f hf => h'.stored f (h.stored f hf), h.expanded.trans h'.expanded⟩

theorem size_expanded_expand (e : Exploration) (f : Fact) (rest : List Fact) :
    (e.expand step f rest).expanded.size = e.expanded.size + 1 := by
  simp [expand, discover]

theorem extends_expand (e : Exploration) (f : Fact) (rest : List Fact) :
    e.Extends (e.expand step f rest) := by
  constructor
  case stored => exact fun g hg => mem_discover.2 (.inl hg)
  case expanded => exact ⟨[f], by simp [expand, discover]⟩

theorem extends_run (fuel : Nat) (e : Exploration) : e.Extends (run step allows fuel e) := by
  induction fuel generalizing e with
  | zero => exact .refl e
  | succ fuel ih =>
    rw [run]
    split
    · exact .refl e
    · next f rest _ =>
      split
      · exact (extends_expand e f rest).trans (ih _)
      · exact .refl e

/-- No limit at all. -/
def unlimited : Nat → Bool := fun _ => true

/-- A run under limits is a run without limits that has just as much fuel as it expands facts. -/
theorem exists_run_unlimited (step : Fact → List Fact) (allows : Nat → Bool) (fuel : Nat)
    (e : Exploration) :
    ∃ n, run step allows fuel e = run step unlimited n e ∧
      (run step allows fuel e).expanded.size = e.expanded.size + n := by
  induction fuel generalizing e with
  | zero => exact ⟨0, rfl, rfl⟩
  | succ fuel ih =>
    by_cases hset : e.isSettled allows = true
    · exact ⟨0, run_of_isSettled hset _, by rw [run_of_isSettled hset]; rfl⟩
    · cases hp : e.pending with
      | nil => simp [isSettled, hp] at hset
      | cons f rest =>
        have ha : allows (e.expanded.size + 1) = true := by simpa [isSettled, hp] using hset
        obtain ⟨n, hrun, hsize⟩ := ih (e.expand step f rest)
        have hstep : run step allows (fuel + 1) e =
            run step allows fuel (e.expand step f rest) := by
          simp only [run, hp, ha, if_true]
        refine ⟨n + 1, ?_, ?_⟩
        · rw [hstep, hrun]
          simp only [run, hp, unlimited, if_true]
        · rw [hstep, hsize, size_expanded_expand]
          omega

/-- Of two runs the one that expands more facts goes on from the other. -/
theorem extends_of_size_le {fuel fuel' : Nat} (h : (run step allows fuel e).expanded.size ≤
    (run step allows' fuel' e).expanded.size) :
    (run step allows fuel e).Extends (run step allows' fuel' e) := by
  obtain ⟨n, hrun, hsize⟩ := exists_run_unlimited step allows fuel e
  obtain ⟨n', hrun', hsize'⟩ := exists_run_unlimited step allows' fuel' e
  have hn : n' = n + (n' - n) := by omega
  rw [hrun, hrun', hn, run_add]
  exact extends_run _ _

@[simp] theorem mem_finish_store {f : Fact} : f ∈ e.finish.store ↔ f ∈ e.store := by
  unfold finish
  split
  · rfl
  · exact Iff.rfl

@[simp] theorem expanded_finish : e.finish.expanded = e.expanded := by
  unfold finish
  split
  · rfl
  · rfl

theorem extends_explore {rounds rounds' : Nat}
    (h : (explore step allows rounds seeds).expanded.size ≤
      (explore step allows' rounds' seeds).expanded.size) :
    (explore step allows rounds seeds).Extends (explore step allows' rounds' seeds) := by
  rw [explore_eq_run, explore_eq_run, expanded_finish, expanded_finish] at h
  obtain ⟨hstored, hexpanded⟩ := extends_of_size_le h
  rw [explore_eq_run, explore_eq_run]
  constructor
  case stored => simpa only [mem_finish_store] using hstored
  case expanded => simpa only [expanded_finish] using hexpanded

/-- With room for all facts an exploration expands as many as the limits allow, or else all. -/
theorem size_expanded_explore {cover : List Fact} {rounds : Nat} {limit : ℕ∞}
    (hcover : ∀ f ∈ reached step seeds, f ∈ cover) (hroom : cover.length ≤ totalFuel rounds 1)
    (hlimit : ∀ n, Affords allows n ↔ (n : ℕ∞) ≤ limit) :
    ((explore step allows rounds seeds).expanded.size : ℕ∞) =
      min limit (reached step seeds).ncard := by
  obtain ⟨e, he, hend, heq⟩ := explore_settles hcover hroom allows
  have hafforded := (hlimit _).1 he.afforded
  rw [heq, expanded_finish]
  by_cases hp : e.pending = []
  · have hcard : (reached step seeds).ncard = e.expanded.size := by
      rw [ncard_eq_length (List.nodup_append'.1 he.nodup).1 (he.mem_expanded hp),
        Array.length_toList]
    rw [hcard, min_eq_right hafforded]
  · have hrefused : ¬ ((e.expanded.size + 1 : Nat) : ℕ∞) ≤ limit := by
      intro hle
      have hallowed := (hlimit _).2 hle (e.expanded.size + 1) (Nat.succ_pos _) le_rfl
      rw [hend.resolve_left hp] at hallowed
      cases hallowed
    have hmore : (e.expanded.size : ℕ∞) ≤ (reached step seeds).ncard := by
      exact_mod_cast (Nat.le_add_right _ _).trans (he.length_le hcover)
    have hlimit_le : limit ≤ e.expanded.size := by
      rw [not_le, Nat.cast_add_one] at hrefused
      exact (ENat.lt_add_one_iff (ENat.natCast_ne_top _)).1 hrefused
    rw [le_antisymm hlimit_le hafforded, min_eq_left hmore]

end Exploration

/-- A store that holds exactly the facts of a set has as many facts as the set. -/
theorem FactStore.size_eq_ncard {s : FactStore} {S : Set Fact} (h : ∀ f, f ∈ s ↔ f ∈ S) :
    s.size = S.ncard := by
  rw [ncard_eq_length s.nodup_toList fun f => mem_toList.trans (h f), Std.TreeSet.length_toList,
    size]

namespace Session

variable {s s' : Session} {q : Query} {seeds : Seeds}

theorem size_expanded_exploration (hp : s.program.WellFormed) (q : Query) (seeds : Seeds) :
    ((s.exploration q seeds).expanded.size : ℕ∞) =
      min s.options.stepLimit (q.facts s.program s.options.maxCallDepth seeds).ncard :=
  Exploration.size_expanded_explore (mem_factCover_of_reached hp _ _ _ _)
    (by rw [length_factCover]; exact factBound_le_totalFuel _ _ _)
    fun _ => SolverOptions.affords_iff_le_stepLimit

theorem complete_storeOf_iff (hp : s.program.WellFormed) : (s.storeOf q seeds).complete = true ↔
    ((q.facts s.program s.options.maxCallDepth seeds).ncard : ℕ∞) ≤ s.options.stepLimit :=
  (outcome_exploration s hp q seeds).complete_iff.trans SolverOptions.affords_iff_le_stepLimit

/-- What a complete solve stores is as much as there is to reach. -/
theorem size_storeOf_of_complete (hp : s.program.WellFormed)
    (hc : (s.storeOf q seeds).complete = true) :
    (s.storeOf q seeds).size = (q.facts s.program s.options.maxCallDepth seeds).ncard :=
  FactStore.size_eq_ncard fun _ => mem_storeOf_iff hp hc

/-- Under limits that are no smaller a solve goes on from where the other one stops. -/
theorem extends_exploration (hp : s.program.WellFormed) (hprogram : s'.program = s.program)
    (hdepth : s'.options.maxCallDepth = s.options.maxCallDepth)
    (hle : s.options.stepLimit ≤ s'.options.stepLimit) :
    (s.exploration q seeds).Extends (s'.exploration q seeds) := by
  have hsize := size_expanded_exploration hp q seeds
  have hsize' := size_expanded_exploration (hprogram ▸ hp : s'.program.WellFormed) q seeds
  rw [hprogram, hdepth] at hsize'
  have hmin : ((s.exploration q seeds).expanded.size : ℕ∞) ≤
      (s'.exploration q seeds).expanded.size := by
    rw [hsize, hsize']
    exact min_le_min_right _ hle
  have h := Nat.cast_le.1 hmin
  unfold exploration explore at h ⊢
  rw [hprogram, hdepth] at h ⊢
  exact Exploration.extends_explore h

theorem contextsOf_subset_of_extends (hprogram : s'.program = s.program) {b : BackwardQuery}
    (h : (s.exploration (.backward b) seeds).Extends (s'.exploration (.backward b) seeds))
    {site : ForwardQuery} {context : CallString}
    (hmem : context ∈ (s.exploreBackward b seeds).contextsOf site) :
    context ∈ (s'.exploreBackward b seeds).contextsOf site := by
  obtain ⟨f, hf, hsite, hcontext⟩ := mem_contextsOf_exploreBackward.1 hmem
  exact mem_contextsOf_exploreBackward.2 ⟨f, h.expanded.subset hf, hprogram ▸ hsite, hcontext⟩

/-- The step limit is exact and monotone. A solve without limits stores some number of facts; a
limited one expands as many of them as the limits allow and is complete exactly if they allow all,
and under limits that are no smaller at least the same facts and the same sites are recorded. -/
theorem solve_stops_at_limit {parts : List (Signature × List Instruction)} {p : Program}
    (hp : Program.build parts = .ok p) {o₀ o o' : SolverOptions} {s₀ s s' : Session}
    (hs₀ : Reached p o₀ s₀) (hs : Reached p o s) (hs' : Reached p o' s')
    (hopen₀ : s₀.closed = false) (hopen : s.closed = false) (hopen' : s'.closed = false)
    (hdepth₀ : o₀.maxCallDepth = o.maxCallDepth) (hdepth' : o'.maxCallDepth = o.maxCallDepth)
    (hfree : o₀.stepLimit = ⊤) (hle : o.stepLimit ≤ o'.stepLimit) (q : Query)
    (hq : p.Knows q.edge) (seeds : Seeds) :
    ∃ r₀ r r', s₀.Solves q seeds r₀ ∧ s.Solves q seeds r ∧ s'.Solves q seeds r' ∧
      ((s.exploration q seeds).expanded.size : ℕ∞) =
        min o.stepLimit (s₀.exploration q seeds).store.size ∧
      (r.1.complete = true ↔ ((s₀.exploration q seeds).store.size : ℕ∞) ≤ o.stepLimit) ∧
      (∀ f ∈ (s.exploration q seeds).store, f ∈ (s'.exploration q seeds).store) ∧
      ∀ b, q = .backward b → ∀ site, ∀ context ∈ (s.exploreBackward b seeds).contextsOf site,
        context ∈ (s'.exploreBackward b seeds).contextsOf site := by
  have hwf := Program.wellFormed_of_build hp
  have hsolves₀ := hs₀.solves hwf hopen₀ hq seeds
  have hsolves := hs.solves hwf hopen hq seeds
  have hsolves' := hs'.solves hwf hopen' hq seeds
  obtain ⟨hprogram₀, rfl, -⟩ := hs₀.program_options hwf
  obtain ⟨rfl, rfl, -⟩ := hs.program_options hwf
  obtain ⟨hprogram', rfl, -⟩ := hs'.program_options hwf
  have hwf₀ : s₀.program.WellFormed := hprogram₀ ▸ hwf
  have hcomplete₀ : (s₀.storeOf q seeds).complete = true := by
    rw [complete_storeOf_iff hwf₀, hfree]
    exact le_top
  have hsize₀ : (s₀.exploration q seeds).store.size =
      (q.facts s.program s.options.maxCallDepth seeds).ncard := by
    rw [← hprogram₀, ← hdepth₀]
    exact size_storeOf_of_complete hwf₀ hcomplete₀
  have hextends : (s.exploration q seeds).Extends (s'.exploration q seeds) :=
    extends_exploration hwf hprogram' hdepth' hle
  refine ⟨_, _, _, hsolves₀, hsolves, hsolves', ?_, ?_, hextends.stored, ?_⟩
  · rw [hsize₀]
    exact size_expanded_exploration hwf q seeds
  · rw [hsize₀]
    exact complete_storeOf_iff hwf
  · rintro b rfl site context hmem
    exact contextsOf_subset_of_extends hprogram' hextends hmem

/-- A session over the program with the call, for solves of so many steps. -/
def relayLimited (steps : Nat) : Session :=
  ⟨relayProgram, { SolverOptions.standard with maxPropagations := steps }, ∅, ∅, false⟩

/-- The result of the call is reached by three facts, so two steps are one too few. -/
theorem solve_stops_at_limit_relay :
    let q : Query := .backward relayResult
    let seeds : Seeds := .singleton .empty
    (relaySession.exploration q seeds).store.size = 3 ∧
      ∃ r r', (relayLimited 2).Solves q seeds r ∧ (relayLimited 3).Solves q seeds r' ∧
        ((relayLimited 2).exploration q seeds).expanded.size = 2 ∧ r.1.complete = false := by
  intro q seeds
  have hsize : (relaySession.exploration q seeds).store.size = 3 := by decide +kernel
  have hreached₀ : Reached relayProgram .standard relaySession := .start rfl
  have hreached : ∀ n, Reached relayProgram (relayLimited n).options (relayLimited n) :=
    fun _ => .start rfl
  have hmore : (relayLimited 2).options.stepLimit ≤ (relayLimited 3).options.stepLimit :=
    SolverOptions.stepLimit_le_succ (by decide)
  obtain ⟨-, r, r', -, hsolves, hsolves', hsteps, hcomplete, -⟩ :=
    solve_stops_at_limit build_relayParts hreached₀ (hreached 2) (hreached 3) rfl rfl rfl rfl rfl
      (by decide) hmore q ⟨⟨_, rfl⟩, ⟨_, rfl⟩⟩ seeds
  have hlimit : (relayLimited 2).options.stepLimit = 2 := by decide
  have hmin : min (2 : ℕ∞) (3 : Nat) = 2 := by decide
  rw [hsize, hlimit] at hsteps hcomplete
  refine ⟨hsize, r, r', hsolves, hsolves', Nat.cast_inj.1 (hsteps.trans hmin), ?_⟩
  exact Bool.eq_false_iff.2 fun hc => absurd (hcomplete.1 hc) (by decide)

end Session

end GuidedDataflow
