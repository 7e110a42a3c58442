import GuidedDataflow.Proofs.Solver.LeastSolve
import GuidedDataflow.Proofs.Solver.Scope

/-!
Solves from several call strings at once. Seeds do not contaminate each other: the store and the
sites of a solve are keyed by whole facts, so a solve from the union of two sets of seeds records
what the solves from the two sets record and nothing else. It may need more steps than each of
them, and where the limits do not afford these it records only a part.
-/

namespace GuidedDataflow

section Union

variable {step : Fact → List Fact} {seeds seeds₁ seeds₂ : List Fact}

theorem reached_mono (h : ∀ f ∈ seeds₁, f ∈ seeds) : reached step seeds₁ ⊆ reached step seeds := by
  intro f hf
  induction hf with
  | seed hmem => exact Reaches.seed (h _ hmem)
  | step _ hg ih => exact Reaches.step ih hg

/-- Each fact that is reached goes back to one seed. -/
theorem reached_union (h : ∀ f, f ∈ seeds ↔ f ∈ seeds₁ ∨ f ∈ seeds₂) :
    reached step seeds = reached step seeds₁ ∪ reached step seeds₂ := by
  apply Set.Subset.antisymm
  · intro f hf
    induction hf with
    | seed hmem => exact ((h _).1 hmem).imp Reaches.seed Reaches.seed
    | step _ hg ih => exact ih.imp (Reaches.step · hg) (Reaches.step · hg)
  · exact Set.union_subset (reached_mono fun f hf => (h f).2 (.inl hf))
      (reached_mono fun f hf => (h f).2 (.inr hf))

end Union

namespace Query

variable {q : Query} {p : Program} {depth : Nat} {seeds seeds₁ seeds₂ : Seeds}

theorem facts_union : q.facts p depth (seeds₁.union seeds₂) =
    q.facts p depth seeds₁ ∪ q.facts p depth seeds₂ := by
  apply reached_union
  intro f
  simp only [Session.seedFacts, List.mem_map, ← OrderedSet.mem_def, OrderedSet.mem_union,
    or_and_right, exists_or]

theorem finite_facts (hp : p.WellFormed) : (q.facts p depth seeds).Finite :=
  (factCover p depth q.cell seeds).toFinset.finite_toSet.subset fun f hf =>
    List.mem_toFinset.2 (mem_factCover_of_reached hp depth q.direction q.cell seeds f hf)

end Query

/-- What affords some steps affords fewer. -/
theorem Affords.of_le {allows : Nat → Bool} {m n : Nat} (h : Affords allows n) (hle : m ≤ n) :
    Affords allows m :=
  fun k hpos hk => h k hpos (hk.trans hle)

namespace Session

variable {s s₁ s₂ : Session} {q : Query} {b : BackwardQuery} {seeds seeds₁ seeds₂ : Seeds}

/-- If all that is reached is less than what a complete solve has reached, it is complete, too. -/
theorem complete_of_facts_subset (hp : s.program.WellFormed)
    (h : q.facts s.program s.options.maxCallDepth seeds₁ ⊆
      q.facts s.program s.options.maxCallDepth seeds)
    (hc : (s.storeOf q seeds).complete = true) : (s.storeOf q seeds₁).complete = true :=
  (outcome_exploration s hp q seeds₁).complete_iff.2
    (((outcome_exploration s hp q seeds).complete_iff.1 hc).of_le
      (Set.ncard_le_ncard h (Query.finite_facts hp)))

theorem exploreBackward_eq {s' : Session} (hprogram : s'.program = s.program)
    (hoptions : s'.options = s.options) (b : BackwardQuery) (seeds : Seeds) :
    s'.exploreBackward b seeds = s.exploreBackward b seeds := by
  unfold exploreBackward explore
  rw [hprogram, hoptions]

section Union

variable (hp : s.program.WellFormed)
include hp

/-- A solve from the union is complete only if those from the two sets are. -/
theorem complete_of_complete_union (hc : (s.storeOf q (seeds₁.union seeds₂)).complete = true) :
    (s.storeOf q seeds₁).complete = true ∧ (s.storeOf q seeds₂).complete = true := by
  constructor
  · exact complete_of_facts_subset hp (Query.facts_union ▸ Set.subset_union_left) hc
  · exact complete_of_facts_subset hp (Query.facts_union ▸ Set.subset_union_right) hc

section Parts

variable (hc₁ : (s.storeOf q seeds₁).complete = true)
  (hc₂ : (s.storeOf q seeds₂).complete = true)
include hc₁ hc₂

theorem mem_storeOf_of_mem_union {f : Fact} (h : f ∈ s.storeOf q (seeds₁.union seeds₂)) :
    f ∈ s.storeOf q seeds₁ ∨ f ∈ s.storeOf q seeds₂ := by
  rw [mem_storeOf_iff hp hc₁, mem_storeOf_iff hp hc₂, ← Set.mem_union, ← Query.facts_union]
  exact (outcome_exploration s hp q _).stored_reached f h

theorem mem_storeOf_union_iff (hc : (s.storeOf q (seeds₁.union seeds₂)).complete = true)
    {f : Fact} :
    f ∈ s.storeOf q (seeds₁.union seeds₂) ↔ f ∈ s.storeOf q seeds₁ ∨ f ∈ s.storeOf q seeds₂ := by
  rw [mem_storeOf_iff hp hc, Query.facts_union, Set.mem_union, mem_storeOf_iff hp hc₁,
    mem_storeOf_iff hp hc₂]

end Parts

section Sites

variable (hc₁ : (s.storeOf (.backward b) seeds₁).complete = true)
  (hc₂ : (s.storeOf (.backward b) seeds₂).complete = true) {site : ForwardQuery}
  {context : CallString}
include hc₁ hc₂

theorem mem_contextsOf_of_mem_union
    (h : context ∈ (s.exploreBackward b (seeds₁.union seeds₂)).contextsOf site) :
    context ∈ (s.exploreBackward b seeds₁).contextsOf site ∨
      context ∈ (s.exploreBackward b seeds₂).contextsOf site := by
  rw [mem_contextsOf_iff hp hc₁, mem_contextsOf_iff hp hc₂]
  obtain ⟨f, hf, hsite⟩ := exists_reached_of_mem_contextsOf hp h
  rw [Query.facts_union] at hf
  exact hf.imp (fun hf => ⟨f, hf, hsite⟩) fun hf => ⟨f, hf, hsite⟩

theorem mem_contextsOf_union_iff
    (hc : (s.storeOf (.backward b) (seeds₁.union seeds₂)).complete = true) :
    context ∈ (s.exploreBackward b (seeds₁.union seeds₂)).contextsOf site ↔
      context ∈ (s.exploreBackward b seeds₁).contextsOf site ∨
        context ∈ (s.exploreBackward b seeds₂).contextsOf site := by
  simp only [mem_contextsOf_iff hp hc, mem_contextsOf_iff hp hc₁, mem_contextsOf_iff hp hc₂,
    Query.facts_union, Set.mem_union, or_and_right, exists_or]

end Sites

end Union

/-- Seeds do not contaminate each other. Whatever a solve from the union of two sets of seeds
records is recorded by one of the solves from the two sets if these are complete. If the solve from
the union is complete, so are they, and it records exactly what they record together: the same
facts and, backward, for each site the same call strings. -/
theorem solve_from_union {parts : List (Signature × List Instruction)} {p : Program}
    {o : SolverOptions} (hp : Program.build parts = .ok p) (hs₁ : Reached p o s₁)
    (hs₂ : Reached p o s₂) (hs : Reached p o s) (hopen₁ : s₁.closed = false)
    (hopen₂ : s₂.closed = false) (hopen : s.closed = false) (q : Query) (hq : p.Knows q.edge)
    (seeds₁ seeds₂ : Seeds) :
    let seeds := seeds₁.union seeds₂
    ∃ r₁ r₂ r, s₁.Solves q seeds₁ r₁ ∧ s₂.Solves q seeds₂ r₂ ∧ s.Solves q seeds r ∧
      (r₁.1.complete = true → r₂.1.complete = true →
        (∀ f ∈ s.storeOf q seeds, f ∈ s₁.storeOf q seeds₁ ∨ f ∈ s₂.storeOf q seeds₂) ∧
        ∀ b, q = .backward b → ∀ site, ∀ context ∈ (s.exploreBackward b seeds).contextsOf site,
          context ∈ (s₁.exploreBackward b seeds₁).contextsOf site ∨
            context ∈ (s₂.exploreBackward b seeds₂).contextsOf site) ∧
      (r.1.complete = true → r₁.1.complete = true ∧ r₂.1.complete = true ∧
        (∀ f, f ∈ s.storeOf q seeds ↔ f ∈ s₁.storeOf q seeds₁ ∨ f ∈ s₂.storeOf q seeds₂) ∧
        ∀ b, q = .backward b → ∀ site context,
          context ∈ (s.exploreBackward b seeds).contextsOf site ↔
            context ∈ (s₁.exploreBackward b seeds₁).contextsOf site ∨
              context ∈ (s₂.exploreBackward b seeds₂).contextsOf site) := by
  intro seeds
  have hwf := Program.wellFormed_of_build hp
  have hsolves₁ := hs₁.solves hwf hopen₁ hq seeds₁
  have hsolves₂ := hs₂.solves hwf hopen₂ hq seeds₂
  have hsolves := hs.solves hwf hopen hq seeds
  refine ⟨_, _, _, hsolves₁, hsolves₂, hsolves, ?_⟩
  obtain ⟨hprogram₁, hoptions₁, -⟩ := hs₁.program_options hwf
  obtain ⟨hprogram₂, hoptions₂, -⟩ := hs₂.program_options hwf
  obtain ⟨rfl, rfl, -⟩ := hs.program_options hwf
  -- what a session explores depends on its program and options only
  simp only [storeOf_eq hprogram₁ hoptions₁, storeOf_eq hprogram₂ hoptions₂,
    exploreBackward_eq hprogram₁ hoptions₁, exploreBackward_eq hprogram₂ hoptions₂]
  constructor
  case left =>
    intro hc₁ hc₂
    refine ⟨fun f => mem_storeOf_of_mem_union hwf hc₁ hc₂, ?_⟩
    rintro b rfl site context
    exact mem_contextsOf_of_mem_union hwf hc₁ hc₂
  case right =>
    intro hc
    obtain ⟨hc₁, hc₂⟩ := complete_of_complete_union hwf hc
    refine ⟨hc₁, hc₂, fun f => mem_storeOf_union_iff hwf hc₁ hc₂ hc, ?_⟩
    rintro b rfl site context
    exact mem_contextsOf_union_iff hwf hc₁ hc₂ hc

/-- A method that returns its first argument and is called twice:
`y = pick(a, b); z = pick(a, d)`. -/
def pickParts : List (Signature × List Instruction) :=
  let pick : Signature := ⟨"<M: Object pick(Object,Object)>"⟩
  let main : Signature := ⟨"<M: void main()>"⟩
  let call : String → String → Instruction := fun result argument =>
    .invoke (some (.localVar result main))
      ⟨pick, none, [.localVar "a" main, .localVar argument main]⟩
  [(pick, [.parameter "p", .parameter "q", .ret (some (.localVar "p" pick))]),
    (main, [.assign (.localVar "a" main) (.string "A"), .assign (.localVar "b" main) (.string "B"),
      .assign (.localVar "d" main) (.string "D"), call "y" "b", call "z" "d", .nop,
      .ret none])]

def pickProgram : Program := (Program.build pickParts).toOption.getD .empty

theorem build_pickParts : Program.build pickParts = .ok pickProgram := rfl

/-- A new session over the program, for solves of so many steps, or any number if that is zero. -/
def pickSession (steps : Nat) : Session :=
  ⟨pickProgram, { SolverOptions.standard with maxPropagations := steps }, ∅, ∅, false⟩

theorem reached_pickSession (steps : Nat) :
    Reached pickProgram (pickSession steps).options (pickSession steps) :=
  .start rfl

/-- Where the first argument goes from inside the method. -/
def pickQuery : ForwardQuery :=
  ⟨⟨⟨1⟩, ⟨2⟩⟩, .self (.localVar "p" ⟨"<M: Object pick(Object,Object)>"⟩) ⟨1⟩⟩

/-- The call string of one call. -/
def pickSeeds (site : Nat) : Seeds := .singleton ⟨[⟨site⟩]⟩

/-- The fact that a result of a call holds at the end. -/
def pickResult (name : String) : Fact := ⟨⟨⟨8⟩, ⟨9⟩⟩, .localVar name ⟨"<M: void main()>"⟩, .empty⟩

/-- Without a limit the results of both calls are recorded from their seeds together. -/
theorem solve_from_union_pick :
    let q : Query := .forward pickQuery
    ∃ r, (pickSession 0).Solves q ((pickSeeds 6).union (pickSeeds 7)) r ∧
      r.1.complete = true ∧
      pickResult "y" ∈ (pickSession 0).storeOf q ((pickSeeds 6).union (pickSeeds 7)) ∧
      pickResult "z" ∈ (pickSession 0).storeOf q ((pickSeeds 6).union (pickSeeds 7)) := by
  intro q
  obtain ⟨r₁, r₂, r, -, -, hsolves, -, hexact⟩ :=
    solve_from_union build_pickParts (reached_pickSession 0) (reached_pickSession 0)
      (reached_pickSession 0) rfl rfl rfl q ⟨⟨_, rfl⟩, ⟨_, rfl⟩⟩ (pickSeeds 6) (pickSeeds 7)
  have hc : r.1.complete = true := by
    rw [hsolves.table]
    decide +kernel
  obtain ⟨-, -, hmem, -⟩ := hexact hc
  refine ⟨r, hsolves, hc, (hmem _).2 (.inl ?_), (hmem _).2 (.inr ?_)⟩
  · decide +kernel
  · decide +kernel

/-- A limit of four steps is enough for each call alone and not for both: the solve from both seeds
stops before the result of the first call has come to the end. -/
theorem solve_from_union_cut_short :
    let q : Query := .forward pickQuery
    ∃ r₁ r₂ r, (pickSession 4).Solves q (pickSeeds 6) r₁ ∧ r₁.1.complete = true ∧
      (pickSession 4).Solves q (pickSeeds 7) r₂ ∧ r₂.1.complete = true ∧
      (pickSession 4).Solves q ((pickSeeds 6).union (pickSeeds 7)) r ∧
      ¬ ∀ f, f ∈ (pickSession 4).storeOf q ((pickSeeds 6).union (pickSeeds 7)) ↔
        f ∈ (pickSession 4).storeOf q (pickSeeds 6) ∨
          f ∈ (pickSession 4).storeOf q (pickSeeds 7) := by
  intro q
  have hwf := Program.wellFormed_of_build build_pickParts
  have hknows : pickProgram.Knows q.edge := ⟨⟨_, rfl⟩, ⟨_, rfl⟩⟩
  have hsolves := fun seeds => (reached_pickSession 4).solves hwf rfl hknows seeds
  refine ⟨_, _, _, hsolves _, by decide +kernel, hsolves _, by decide +kernel, hsolves _, ?_⟩
  intro hall
  have hmissing : pickResult "y" ∉
      (pickSession 4).storeOf q ((pickSeeds 6).union (pickSeeds 7)) := by decide +kernel
  exact hmissing ((hall _).2 (.inl (by decide +kernel)))

end Session

end GuidedDataflow
