import GuidedDataflow.Proofs.Flow.Narrowing
import GuidedDataflow.Proofs.Solver.LeastSolve
import GuidedDataflow.Proofs.Solver.Tables

/-!
What solves find under longer call strings. A scoped solve finds nothing that the solve of the
same query at top level does not find, and a solve under a deeper bound nothing that one under
a shallower bound does not find. Every bound is sound: whatever is reached when call strings
are never cut is found.
-/

namespace GuidedDataflow

/-- The first answer to the query holds nothing that the second does not hold. -/
structure Query.AnswerWithin (q : Query) (r₁ r₂ : Table × Session) : Prop where
  cells : ∀ c ∈ r₁.1, c ∈ r₂.1
  sites : ∀ b, q = .backward b → ∀ site ∈ (r₁.2.allocationSites b).map Prod.fst,
    site ∈ (r₂.2.allocationSites b).map Prod.fst

/-- The answer to the query holds every fact's cell and, backward, the allocation at it. -/
structure Query.AnswerHolds (q : Query) (p : Program) (r : Table × Session) (facts : Set Fact) :
    Prop where
  cells : ∀ f ∈ facts, f.cell ∈ r.1
  sites : ∀ b, q = .backward b → ∀ f ∈ facts, ∀ site, Flow.allocation? p f = some site →
    site ∈ (r.2.allocationSites b).map Prod.fst

/-- The facts that steps lead to from the query's cell under an unknown caller if call strings
are never cut. -/
def Query.freeFacts (q : Query) (p : Program) : Set Fact :=
  reached (Flow.freeStep p q.direction) (Session.seedFacts q.cell (.singleton .empty))

theorem Program.Inside.knows {p : Program} {e : Edge} {method : Signature}
    (h : p.Inside e method) : p.Knows e := by
  obtain ⟨s, hs, -⟩ := Option.map_eq_some_iff.1 h.start
  obtain ⟨t, ht, -⟩ := Option.map_eq_some_iff.1 h.target
  exact ⟨⟨s, hs⟩, ⟨t, ht⟩⟩

namespace Session

variable {s₁ s₂ : Session} {q : Query} {seeds seeds₁ seeds₂ : Seeds}

/-- The answer of a solve to its query. -/
def answer (s : Session) (q : Query) (seeds : Seeds) : Table × Session :=
  ((s.storeOf q seeds).table, s.after q seeds)

theorem answerHolds_of_covered {s : Session} (hp : s.program.WellFormed) {facts : Set Fact}
    (hcover : Flow.Covered facts (q.facts s.program s.options.maxCallDepth seeds))
    (hc : (s.answer q seeds).1.complete = true) :
    q.AnswerHolds s.program (s.answer q seeds) facts := by
  constructor
  case cells =>
    intro f hf
    obtain ⟨context, hreached⟩ := hcover f hf
    have hmem := mem_table_of_reached hp hc hreached
    exact hmem
  case sites =>
    rintro b rfl f hf site hsite
    obtain ⟨context, hreached⟩ := hcover f hf
    exact mem_sites_of_reached hp hc hreached hsite

/-- If every fact that one solve can reach can be reached by another under some call string,
then all that the one finds is found by the other where it is complete. -/
theorem answerWithin_of_covered (hprogram : s₁.program = s₂.program) (hp : s₂.program.WellFormed)
    (hcover : Flow.Covered (q.facts s₁.program s₁.options.maxCallDepth seeds₁)
      (q.facts s₂.program s₂.options.maxCallDepth seeds₂))
    (hc : (s₂.answer q seeds₂).1.complete = true) :
    q.AnswerWithin (s₁.answer q seeds₁) (s₂.answer q seeds₂) := by
  have hholds := answerHolds_of_covered hp hcover hc
  have hp₁ : s₁.program.WellFormed := hprogram ▸ hp
  constructor
  case cells =>
    intro c hmem
    obtain ⟨f, hf, rfl⟩ := exists_reached_of_mem_table hp₁ hmem
    exact hholds.cells f hf
  case sites =>
    rintro b rfl site hmem
    obtain ⟨f, hf, hsite⟩ := exists_reached_of_mem_sites hp₁ hmem
    exact hholds.sites b rfl f hf site (hprogram ▸ hsite)

section Solves

variable {parts : List (Signature × List Instruction)} {p : Program} {o₁ o₂ : SolverOptions}
  {method : Signature}

/-- Scoping only narrows: from any call strings that lead to the query's method a solve finds no
cell and no allocation site that the complete solve at top level does not find, whatever has
been solved before and wherever the scoped solve is cut short. -/
theorem scoped_solve_narrows (hp : Program.build parts = .ok p) (hk : p.KeepsToMethods)
    (hdepth : o₁.maxCallDepth = o₂.maxCallDepth) (hs₁ : Reached p o₁ s₁) (hs₂ : Reached p o₂ s₂)
    (hopen₁ : s₁.closed = false) (hopen₂ : s₂.closed = false) (hq : p.Inside q.edge method)
    (hseeds : ∀ context ∈ seeds, context.Leads p method) :
    ∃ r₁ r₂, s₁.solveFrom q seeds = .ok r₁ ∧ s₂.solve (.topLevel q) = .ok r₂ ∧
      (r₂.1.complete = true → q.AnswerWithin r₁ r₂) := by
  have hwf := Program.wellFormed_of_build hp
  obtain ⟨hprogram₁, rfl, hcoh₁⟩ := hs₁.program_options hwf
  obtain ⟨rfl, rfl, hcoh₂⟩ := hs₂.program_options hwf
  have hsolve₁ := solveFrom_eq (hprogram₁ ▸ hwf) hcoh₁ hopen₁ q (hprogram₁ ▸ hq.knows) seeds
  have hsolve₂ := solveFrom_eq hwf hcoh₂ hopen₂ q hq.knows (.singleton .empty)
  refine ⟨_, _, hsolve₁, (solve_topLevel hopen₂ q).trans hsolve₂, fun hc => ?_⟩
  refine answerWithin_of_covered hprogram₁ hwf ?_ hc
  rw [hprogram₁, hdepth]
  exact Flow.covered_reached hwf hk (Flow.deepens_step _ _ le_rfl) hq hseeds

/-- A program that hands two constants through two calls of one method, which hands them on to
another: `x = "A"; y = relay(x); z = "B"; w = relay(z); return w`. -/
def nestedParts : List (Signature × List Instruction) :=
  let main : Signature := ⟨"<M: void main()>"⟩
  let relay : Signature := ⟨"<M: Object relay(Object)>"⟩
  let echo : Signature := ⟨"<M: Object echo(Object)>"⟩
  [(main, [.assign (.localVar "x" main) (.string "A"),
      .invoke (some (.localVar "y" main)) ⟨relay, none, [.localVar "x" main]⟩,
      .assign (.localVar "z" main) (.string "B"),
      .invoke (some (.localVar "w" main)) ⟨relay, none, [.localVar "z" main]⟩,
      .ret (some (.localVar "w" main))]),
    (relay, [.parameter "a",
      .invoke (some (.localVar "b" relay)) ⟨echo, none, [.localVar "a" relay]⟩,
      .ret (some (.localVar "b" relay))]),
    (echo, [.parameter "c", .ret (some (.localVar "c" echo))])]

def nestedProgram : Program := (Program.build nestedParts).toOption.getD .empty

theorem build_nestedParts : Program.build nestedParts = .ok nestedProgram := rfl

/-- What the inner method returns. -/
def nestedReturn : BackwardQuery :=
  ⟨⟨⟨8⟩, ⟨9⟩⟩, .localVar "c" ⟨"<M: Object echo(Object)>"⟩⟩

/-- What the second call of the outer method results in. -/
def nestedResult : BackwardQuery := ⟨⟨⟨3⟩, ⟨4⟩⟩, .localVar "w" ⟨"<M: void main()>"⟩⟩

theorem nestedReturn_inside :
    nestedProgram.Inside nestedReturn.edge ⟨"<M: Object echo(Object)>"⟩ :=
  ⟨rfl, rfl⟩

theorem nestedResult_inside : nestedProgram.Inside nestedResult.edge ⟨"<M: void main()>"⟩ :=
  ⟨rfl, rfl⟩

/-- Where the second constant is created. -/
def nestedSite : ForwardQuery :=
  ⟨⟨⟨2⟩, ⟨3⟩⟩, ⟨.localVar "z" ⟨"<M: void main()>"⟩, ⟨2⟩, .string "B"⟩⟩

/-- The inner method as called by the second call of the outer one. -/
def nestedCalls : CallString := ⟨[⟨3⟩, ⟨6⟩]⟩

theorem nestedCalls_leads : nestedCalls.Leads nestedProgram ⟨"<M: Object echo(Object)>"⟩ := by
  have houter : CallString.Leads nestedProgram (CallString.empty.push ⟨3⟩)
      ⟨"<M: Object relay(Object)>"⟩ :=
    .push (.empty _) (rfl : nestedProgram.statement? ⟨3⟩ = some _) rfl
  exact .push houter (rfl : nestedProgram.statement? ⟨6⟩ = some _) rfl

def nestedSession (depth : Nat) : Session :=
  ⟨nestedProgram, { SolverOptions.standard with maxCallDepth := depth }, ∅, ∅, false⟩

theorem affords_nestedSession (depth n : Nat) :
    Affords (nestedSession depth).options.allows n :=
  (SolverOptions.affords_iff (by simp [nestedSession, SolverOptions.standard])).2 (.inl rfl)

theorem complete_nestedSession {depth : Nat} (hdepth : depth ≠ 0) {q : Query} {seeds : Seeds}
    {r : Table × Session} (h : (nestedSession depth).solveFrom q seeds = .ok r) :
    r.1.complete = true := by
  have hwf := Program.wellFormed_of_build build_nestedParts
  have hstart : Reached nestedProgram (nestedSession depth).options (nestedSession depth) :=
    .start (by rw [Session.start, if_neg]; exacts [rfl, hdepth])
  obtain ⟨-, -, hcoh⟩ := hstart.program_options hwf
  exact (complete_of_solveFrom hwf hcoh h).2 (affords_nestedSession depth _)

/-- Under the second call the second constant reaches what the inner method returns. -/
theorem nested_facts : (⟨nestedSite.edge, nestedSite.var, .empty⟩ : Fact) ∈
    (Query.backward nestedReturn).facts nestedProgram 2 (.singleton nestedCalls) := by
  have hseed : (⟨nestedReturn.edge, nestedReturn.value, nestedCalls⟩ : Fact) ∈
      seedFacts (Query.backward nestedReturn).cell (.singleton nestedCalls) := by decide
  have hleft : (⟨⟨⟨5⟩, ⟨6⟩⟩, .localVar "a" ⟨"<M: Object relay(Object)>"⟩, ⟨[⟨3⟩]⟩⟩ : Fact) ∈
      Flow.backward nestedProgram 2 ⟨nestedReturn.edge, nestedReturn.value, nestedCalls⟩ := by
    decide
  have houter : (⟨nestedSite.edge, nestedSite.var, .empty⟩ : Fact) ∈ Flow.backward nestedProgram 2
      ⟨⟨⟨5⟩, ⟨6⟩⟩, .localVar "a" ⟨"<M: Object relay(Object)>"⟩, ⟨[⟨3⟩]⟩⟩ := by decide
  exact Reaches.step (Reaches.step (Reaches.seed hseed) hleft) houter

/-- Under the second call the second constant is found, and at top level it is found as well. -/
theorem scoped_solve_narrows_nested :
    ∃ r₁ r₂,
      (nestedSession 2).solveFrom (.backward nestedReturn) (.singleton nestedCalls) = .ok r₁ ∧
      (nestedSession 2).solve (.topLevel (.backward nestedReturn)) = .ok r₂ ∧
      r₂.1.complete = true ∧ nestedSite ∈ (r₁.2.allocationSites nestedReturn).map Prod.fst ∧
      nestedSite ∈ (r₂.2.allocationSites nestedReturn).map Prod.fst := by
  have hwf := Program.wellFormed_of_build build_nestedParts
  have hstart : Reached nestedProgram (nestedSession 2).options (nestedSession 2) := .start rfl
  have hseeds : ∀ context ∈ (OrderedSet.singleton nestedCalls : Seeds),
      context.Leads nestedProgram ⟨"<M: Object echo(Object)>"⟩ := by
    intro context hmem
    rw [OrderedSet.mem_singleton.1 hmem]
    exact nestedCalls_leads
  obtain ⟨r₁, r₂, hsolve₁, hsolve₂, hwithin⟩ :=
    scoped_solve_narrows (q := .backward nestedReturn) build_nestedParts (by decide) rfl hstart
      hstart rfl rfl nestedReturn_inside hseeds
  have hc₁ := complete_nestedSession (by decide) hsolve₁
  have hc₂ := complete_nestedSession (by decide) ((solve_topLevel rfl _).symm.trans hsolve₂)
  have hfound : nestedSite ∈ (r₁.2.allocationSites nestedReturn).map Prod.fst := by
    rw [solveFrom_eq hwf (hstart.program_options hwf).2.2 rfl (.backward nestedReturn)
      nestedReturn_inside.knows] at hsolve₁
    cases hsolve₁
    exact mem_sites_of_reached hwf hc₁ nested_facts (by decide)
  exact ⟨r₁, r₂, hsolve₁, hsolve₂, hc₂, hfound, (hwithin hc₂).sites _ rfl _ hfound⟩

/-- The bound on call strings is monotone and sound: at top level a solve under a bound that is
not smaller finds nothing that the complete solve does not find, and both find, where they are
complete, whatever is reached when call strings are never cut. -/
theorem deeper_solve_narrows (hp : Program.build parts = .ok p) (hk : p.KeepsToMethods)
    (hdepth : o₁.maxCallDepth ≤ o₂.maxCallDepth) (hs₁ : Reached p o₁ s₁) (hs₂ : Reached p o₂ s₂)
    (hopen₁ : s₁.closed = false) (hopen₂ : s₂.closed = false) (hq : p.Inside q.edge method) :
    ∃ r₁ r₂, s₁.solve (.topLevel q) = .ok r₁ ∧ s₂.solve (.topLevel q) = .ok r₂ ∧
      (r₁.1.complete = true → q.AnswerWithin r₂ r₁) ∧
      (r₁.1.complete = true → q.AnswerHolds p r₁ (q.freeFacts p)) ∧
      (r₂.1.complete = true → q.AnswerHolds p r₂ (q.freeFacts p)) := by
  have hwf := Program.wellFormed_of_build hp
  obtain ⟨hprogram₁, rfl, hcoh₁⟩ := hs₁.program_options hwf
  obtain ⟨rfl, rfl, hcoh₂⟩ := hs₂.program_options hwf
  have hwf₁ : s₁.program.WellFormed := hprogram₁ ▸ hwf
  have hseeds : ∀ context ∈ (OrderedSet.singleton CallString.empty : Seeds),
      context.Leads s₂.program method := by
    intro context hmem
    rw [OrderedSet.mem_singleton.1 hmem]
    exact .empty _
  have hsolve₁ := solveFrom_eq hwf₁ hcoh₁ hopen₁ q (hprogram₁ ▸ hq.knows) (.singleton .empty)
  have hsolve₂ := solveFrom_eq hwf hcoh₂ hopen₂ q hq.knows (.singleton .empty)
  refine ⟨_, _, (solve_topLevel hopen₁ q).trans hsolve₁, (solve_topLevel hopen₂ q).trans hsolve₂,
    fun hc => answerWithin_of_covered hprogram₁.symm hwf₁ ?_ hc, fun hc => ?_,
    fun hc => answerHolds_of_covered hwf ?_ hc⟩
  · rw [hprogram₁]
    exact Flow.covered_reached hwf hk (Flow.deepens_step _ _ hdepth) hq hseeds
  · rw [← hprogram₁] at hk hq hseeds ⊢
    refine answerHolds_of_covered hwf₁ ?_ hc
    exact Flow.covered_reached hwf₁ hk (Flow.deepens_freeStep _ _ _) hq hseeds
  · exact Flow.covered_reached hwf hk (Flow.deepens_freeStep _ _ _) hq hseeds

/-- The second constant reaches the result of the second call, through both methods. -/
theorem nested_freeFacts : (⟨nestedSite.edge, nestedSite.var, .empty⟩ : Fact) ∈
    (Query.backward nestedResult).freeFacts nestedProgram := by
  let relayReturn : Fact := ⟨⟨⟨6⟩, ⟨7⟩⟩, .localVar "b" ⟨"<M: Object relay(Object)>"⟩, ⟨[⟨3⟩]⟩⟩
  let echoReturn : Fact := ⟨nestedReturn.edge, nestedReturn.value, nestedCalls⟩
  let relayEntry : Fact := ⟨⟨⟨5⟩, ⟨6⟩⟩, .localVar "a" ⟨"<M: Object relay(Object)>"⟩, ⟨[⟨3⟩]⟩⟩
  have hseed : (⟨nestedResult.edge, nestedResult.value, .empty⟩ : Fact) ∈
      seedFacts (Query.backward nestedResult).cell (.singleton .empty) := by decide
  have hrelay : relayReturn ∈ Flow.freeStep nestedProgram .backward
      ⟨nestedResult.edge, nestedResult.value, .empty⟩ := by decide
  have hecho : echoReturn ∈ Flow.freeStep nestedProgram .backward relayReturn := by decide
  have hentry : relayEntry ∈ Flow.freeStep nestedProgram .backward echoReturn := by decide
  have hsite : (⟨nestedSite.edge, nestedSite.var, .empty⟩ : Fact) ∈
      Flow.freeStep nestedProgram .backward relayEntry := by decide
  have hreached : echoReturn ∈ (Query.backward nestedResult).freeFacts nestedProgram :=
    Reaches.step (Reaches.step (Reaches.seed hseed) hrelay) hecho
  exact Reaches.step (Reaches.step hreached hentry) hsite

/-- The second constant is found as the origin of the second call's result under both bounds. -/
theorem deeper_solve_narrows_nested :
    ∃ r₁ r₂, (nestedSession 1).solve (.topLevel (.backward nestedResult)) = .ok r₁ ∧
      (nestedSession 2).solve (.topLevel (.backward nestedResult)) = .ok r₂ ∧
      r₁.1.complete = true ∧ r₂.1.complete = true ∧
      (Query.backward nestedResult).AnswerWithin r₂ r₁ ∧
      nestedSite ∈ (r₁.2.allocationSites nestedResult).map Prod.fst ∧
      nestedSite ∈ (r₂.2.allocationSites nestedResult).map Prod.fst := by
  have hstart₁ : Reached nestedProgram (nestedSession 1).options (nestedSession 1) := .start rfl
  have hstart₂ : Reached nestedProgram (nestedSession 2).options (nestedSession 2) := .start rfl
  obtain ⟨r₁, r₂, hsolve₁, hsolve₂, hwithin, hholds₁, hholds₂⟩ :=
    deeper_solve_narrows (q := .backward nestedResult) build_nestedParts (by decide) (by decide)
      hstart₁ hstart₂ rfl rfl nestedResult_inside
  have hc₁ := complete_nestedSession (by decide) ((solve_topLevel rfl _).symm.trans hsolve₁)
  have hc₂ := complete_nestedSession (by decide) ((solve_topLevel rfl _).symm.trans hsolve₂)
  exact ⟨r₁, r₂, hsolve₁, hsolve₂, hc₁, hc₂, hwithin hc₁,
    (hholds₁ hc₁).sites _ rfl _ nested_freeFacts _ (by decide),
    (hholds₂ hc₂).sites _ rfl _ nested_freeFacts _ (by decide)⟩

end Solves

end Session

end GuidedDataflow
