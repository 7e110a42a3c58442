import GuidedDataflow.Proofs.Solver.Record

/-!
What a solve records. Within its limits it records exactly the least set of facts that holds
the query's cell under the seeds and is closed under the transfer of the query's direction,
and backward also exactly the allocations reported at these facts. Cut short, it records a
part of both, and the query's own cell.
-/

namespace GuidedDataflow.Session

open Std

variable {s : Session}

/-- The store of the run kept under the query and the seeds. -/
def recordedStore? (s : Session) : Query → Seeds → Option FactStore
  | .forward q, seeds => s.forward[q]?.bind (·.find? seeds)
  | .backward q, seeds => (s.backward[q]?.bind (·.find? seeds)).map BackwardRun.store

/-- The backward run kept under the query and the seeds. -/
def recordedRun? (s : Session) (q : BackwardQuery) (seeds : Seeds) : Option BackwardRun :=
  s.backward[q]?.bind (·.find? seeds)

theorem recordedRun?_after (s : Session) (q : BackwardQuery) (seeds : Seeds) :
    (s.after (.backward q) seeds).recordedRun? q seeds = some (s.exploreBackward q seeds) := by
  simp [recordedRun?, after, getElem?_recordBackward]

theorem recordedStore?_after (s : Session) (q : Query) (seeds : Seeds) :
    (s.after q seeds).recordedStore? q seeds = some (s.storeOf q seeds) := by
  cases q with
  | forward q =>
    simp only [recordedStore?, after, getElem?_recordForward, if_true, Option.bind_some,
      History.find?_record_self]
    rfl
  | backward q =>
    have h := recordedRun?_after s q seeds
    unfold recordedRun? at h
    simp only [recordedStore?, h, Option.map_some]
    rfl

/-- The solve of the query from the seeds succeeds and keeps what its exploration has come to. -/
structure Solves (s : Session) (q : Query) (seeds : Seeds) (r : Table × Session) : Prop where
  solved : s.solveFrom q seeds = .ok r
  table : r.1 = (s.exploration q seeds).store.table
  store : r.2.recordedStore? q seeds = some (s.exploration q seeds).store
  run : ∀ b, q = .backward b → r.2.recordedRun? b seeds = some (s.exploreBackward b seeds)

/-- On an open session that solves have led to every solve over a known edge succeeds. -/
theorem Reached.solves {p : Program} {o : SolverOptions} (hs : Reached p o s) (hp : p.WellFormed)
    (hopen : s.closed = false) {q : Query} (hq : p.Knows q.edge) (seeds : Seeds) :
    s.Solves q seeds ((s.storeOf q seeds).table, s.after q seeds) := by
  obtain ⟨rfl, -, hcoh⟩ := hs.program_options hp
  refine ⟨solveFrom_eq hp hcoh hopen q hq seeds, rfl, recordedStore?_after s q seeds, ?_⟩
  rintro b rfl
  exact recordedRun?_after s b seeds

/-- A complete solve stores just what is reached. -/
theorem mem_storeOf_iff (hp : s.program.WellFormed) {q : Query} {seeds : Seeds}
    (hc : (s.storeOf q seeds).complete = true) {f : Fact} :
    f ∈ s.storeOf q seeds ↔ f ∈ q.facts s.program s.options.maxCallDepth seeds :=
  have hout := outcome_exploration s hp q seeds
  ⟨hout.stored_reached f, hout.reached_stored hc f⟩

theorem cell_mem_table {q : Query} {seeds : Seeds} {store : FactStore}
    (hseeds : seeds.isEmpty = false) (h : ∀ f ∈ seedFacts q.cell seeds, f ∈ store) :
    q.cell ∈ store.table := by
  obtain ⟨context, hmem⟩ : ∃ context, context ∈ seeds.toList :=
    List.exists_mem_of_ne_nil _ (by simpa [OrderedSet.isEmpty] using hseeds)
  exact FactStore.mem_table.2 ⟨_, h _ (List.mem_map_of_mem hmem), rfl⟩

/-- On every open session that solves have led to, a solve over a known edge succeeds and
records the least closed set of facts, or a part of it where the limits do not afford as many
steps as that set has facts. -/
theorem solveFrom_records_least {parts : List (Signature × List Instruction)} {p : Program}
    {o : SolverOptions} (hp : Program.build parts = .ok p) (hs : Reached p o s)
    (hopen : s.closed = false) (q : Query) (hq : p.Knows q.edge) (seeds : Seeds)
    (hseeds : seeds.isEmpty = false) :
    IsLeast (closedSets (Flow.step p o.maxCallDepth q.direction) (seedFacts q.cell seeds))
      (q.facts p o.maxCallDepth seeds) ∧
    ∃ t s' store, s.solveFrom q seeds = .ok (t, s') ∧ s'.recordedStore? q seeds = some store ∧
      (∀ c, c ∈ t ↔ ∃ f ∈ store, f.cell = c) ∧ t.complete = store.complete ∧
      (t.complete = true ↔ Affords o.allows (q.facts p o.maxCallDepth seeds).ncard) ∧
      (t.complete = true → ∀ f, f ∈ store ↔ f ∈ q.facts p o.maxCallDepth seeds) ∧
      (t.complete = false → (∀ f ∈ store, f ∈ q.facts p o.maxCallDepth seeds) ∧ q.cell ∈ t) ∧
      ∀ b, q = .backward b → ∃ run, s'.recordedRun? b seeds = some run ∧ run.store = store ∧
        (∀ site, site ∈ run.sites ↔ ∃ context, context ∈ run.contextsOf site) ∧
        (t.complete = true → ∀ site context, context ∈ run.contextsOf site ↔
          ∃ f ∈ q.facts p o.maxCallDepth seeds,
            Flow.allocation? p f = some site ∧ f.context = context) ∧
        (t.complete = false → ∀ site, ∀ context ∈ run.contextsOf site,
          ∃ f ∈ q.facts p o.maxCallDepth seeds,
            Flow.allocation? p f = some site ∧ f.context = context) := by
  have hwf := Program.wellFormed_of_build hp
  obtain ⟨rfl, rfl, hcoh⟩ := hs.program_options hwf
  have hout := outcome_exploration s hwf q seeds
  refine ⟨isLeast_reached _ _, (s.storeOf q seeds).table, s.after q seeds, s.storeOf q seeds,
    solveFrom_eq hwf hcoh hopen q hq seeds, recordedStore?_after s q seeds,
    fun c => FactStore.mem_table, rfl, hout.complete_iff, ?_, ?_, ?_⟩
  · exact fun hc f => ⟨hout.stored_reached f, hout.reached_stored hc f⟩
  · exact fun _ => ⟨hout.stored_reached, cell_mem_table hseeds hout.seeded⟩
  · rintro b rfl
    refine ⟨s.exploreBackward b seeds, recordedRun?_after s b seeds, rfl,
      fun site => BackwardRun.mem_sites, ?_, ?_⟩
    · intro hc site context
      rw [mem_contextsOf_exploreBackward]
      constructor
      · rintro ⟨f, hf, h⟩
        exact ⟨f, hout.expanded_reached f hf, h⟩
      · rintro ⟨f, hf, h⟩
        exact ⟨f, hout.reached_expanded hc f hf, h⟩
    · intro _ site context h
      obtain ⟨f, hf, h⟩ := mem_contextsOf_exploreBackward.1 h
      exact ⟨f, hout.expanded_reached f hf, h⟩

/-- A program that hands a constant through a call: `x = "A"; y = relay(x); return y`. -/
def relayParts : List (Signature × List Instruction) :=
  let main : Signature := ⟨"<M: void main()>"⟩
  let relay : Signature := ⟨"<M: Object relay(Object)>"⟩
  [(main, [.assign (.localVar "x" main) (.string "A"),
      .invoke (some (.localVar "y" main)) ⟨relay, none, [.localVar "x" main]⟩,
      .ret (some (.localVar "y" main))]),
    (relay, [.parameter "a", .ret (some (.localVar "a" relay))])]

def relayProgram : Program := (Program.build relayParts).toOption.getD .empty

/-- Where the result of the call holds. -/
def relayResult : BackwardQuery := ⟨⟨⟨1⟩, ⟨2⟩⟩, .localVar "y" ⟨"<M: void main()>"⟩⟩

/-- Where the constant is created. -/
def relaySite : ForwardQuery :=
  ⟨⟨⟨0⟩, ⟨1⟩⟩, ⟨.localVar "x" ⟨"<M: void main()>"⟩, ⟨0⟩, .string "A"⟩⟩

def relaySession : Session := ⟨relayProgram, .standard, ∅, ∅, false⟩

theorem build_relayParts : Program.build relayParts = .ok relayProgram := rfl

theorem affords_standard (n : Nat) : Affords SolverOptions.standard.allows n :=
  (SolverOptions.affords_iff (by decide)).2 (.inl rfl)

/-- The constant reaches the result of the call from inside the callee. -/
theorem relay_facts : (⟨⟨⟨0⟩, ⟨1⟩⟩, relaySite.var, .empty⟩ : Fact) ∈
    (Query.backward relayResult).facts relayProgram 8 (.singleton .empty) := by
  have hseed : (⟨relayResult.edge, relayResult.value, .empty⟩ : Fact) ∈
      seedFacts (Query.backward relayResult).cell (.singleton .empty) := by decide
  have hentered : (⟨⟨⟨3⟩, ⟨4⟩⟩, .localVar "a" ⟨"<M: Object relay(Object)>"⟩, ⟨[⟨1⟩]⟩⟩ : Fact) ∈
      Flow.backward relayProgram 8 ⟨relayResult.edge, relayResult.value, .empty⟩ := by decide
  have hleft : (⟨⟨⟨0⟩, ⟨1⟩⟩, relaySite.var, .empty⟩ : Fact) ∈ Flow.backward relayProgram 8
      ⟨⟨⟨3⟩, ⟨4⟩⟩, .localVar "a" ⟨"<M: Object relay(Object)>"⟩, ⟨[⟨1⟩]⟩⟩ := by decide
  exact Reaches.step (Reaches.step (Reaches.seed hseed) hentered) hleft

/-- The backward solve from the result of the call is complete and meets the constant. -/
theorem solveFrom_records_least_relay :
    ∃ t s' run, relaySession.solveFrom (.backward relayResult) (.singleton .empty) = .ok (t, s') ∧
      t.complete = true ∧ s'.recordedRun? relayResult (.singleton .empty) = some run ∧
      CallString.empty ∈ run.contextsOf relaySite := by
  have hstart : Reached relayProgram .standard relaySession := .start rfl
  have hknows : relayProgram.Knows relayResult.edge := ⟨⟨_, rfl⟩, ⟨_, rfl⟩⟩
  obtain ⟨-, t, s', store, hsolve, -, -, -, hcomplete, -, -, hbackward⟩ :=
    solveFrom_records_least build_relayParts hstart rfl (.backward relayResult) hknows
      (.singleton .empty) rfl
  have hc : t.complete = true := hcomplete.2 (affords_standard _)
  obtain ⟨run, hrun, -, -, hsites, -⟩ := hbackward relayResult rfl
  refine ⟨t, s', run, hsolve, hc, hrun, (hsites hc relaySite .empty).2 ⟨_, relay_facts, ?_⟩⟩
  decide

end GuidedDataflow.Session
