import GuidedDataflow.Proofs.Flow.Placement

/-!
Forgetting outer call sites. A run of placed facts is matched step by step by one under ends of
its call strings and under any smaller bound: a call pushes its site on both strings, and a
return whose site has been forgotten may go to any call of the method, the forgotten one among
them. So neither a longer call string nor a greater bound leads to new cells, and no bound at
all leads to no more.
-/

namespace GuidedDataflow.Flow

variable {p : Program} {k k' : Nat} {d : Direction} {f g : Fact} {method : Signature}

/-- Whatever a string returns to, each of its ends returns to as well. -/
theorem exists_returnSites_of_isEnd (hp : p.WellFormed) {c c' caller : CallString} {site : StmtId}
    (hc : c.Leads p method) (hend : c'.IsEnd c) (h : (site, caller) ∈ returnSites p method c) :
    ∃ caller' : CallString, caller'.IsEnd caller ∧ (site, caller') ∈ returnSites p method c' := by
  have hcaller := mem_callersOf_of_mem_returnSites hp hc h
  rcases mem_returnSites.1 h with rfl | ⟨rfl, rfl, -⟩
  · rcases CallString.isEnd_push_iff.1 hend with rfl | ⟨outer, rfl, houter⟩
    · exact ⟨.empty, CallString.empty_isEnd _, mem_returnSites.2 (.inr ⟨rfl, rfl, hcaller⟩)⟩
    · exact ⟨outer, houter, mem_returnSites.2 (.inl rfl)⟩
  · obtain rfl := CallString.isEnd_empty_iff.1 hend
    exact ⟨.empty, hend, mem_returnSites.2 (.inr ⟨rfl, rfl, hcaller⟩)⟩

section Simulation

variable (hp : p.WellFormed) (hbound : k ≤ k') (hf : f.Placed p method) {c : CallString}
  (hend : c.IsEnd f.context)
include hp hbound hf hend

theorem forwardStep_of_isEnd (h : ForwardStep p k' f g) :
    ∃ c' : CallString, c'.IsEnd g.context ∧
      ForwardStep p k (Fact.ofCell f.cell c) (Fact.ofCell g.cell c') := by
  cases h with
  | within hs hcarries he => exact ⟨c, hend, .within hs hcarries he⟩
  | enter hs ha hm hid hactual ht hta he =>
    exact ⟨_, hend.pushBounded _ hbound, .enter hs ha hm hid hactual ht hta he⟩
  | leave hs ha hsite ht hleft he =>
    have hleads := hf.edge.method_target hs ▸ hf.leads
    obtain ⟨caller', hcaller, hsite'⟩ := exists_returnSites_of_isEnd hp hleads hend hsite
    exact ⟨caller', hcaller, .leave hs ha hsite' ht hleft he⟩

theorem backwardStep_of_isEnd (h : BackwardStep p k' f g) :
    ∃ c' : CallString, c'.IsEnd g.context ∧
      BackwardStep p k (Fact.ofCell f.cell c) (Fact.ofCell g.cell c') := by
  cases h with
  | within hs hrecalls he => exact ⟨c, hend, .within hs hrecalls he⟩
  | enter hs ha hm hid ht hreturned hlocal he =>
    exact ⟨_, hend.pushBounded _ hbound, .enter hs ha hm hid ht hreturned hlocal he⟩
  | leave hs ha hsite ht hcall hactual hlocal he =>
    have hleads := hf.edge.method_start hs ▸ hf.leads
    obtain ⟨caller', hcaller, hsite'⟩ := exists_returnSites_of_isEnd hp hleads hend hsite
    exact ⟨caller', hcaller, .leave hs ha hsite' ht hcall hactual hlocal he⟩

/-- A step is matched under every end of the call string and every smaller bound. -/
theorem step_of_isEnd (h : g ∈ step p k' d f) :
    ∃ c' : CallString, c'.IsEnd g.context ∧
      Fact.ofCell g.cell c' ∈ step p k d (Fact.ofCell f.cell c) := by
  cases d with
  | forward =>
    obtain ⟨c', hend', hstep⟩ := forwardStep_of_isEnd hp hbound hf hend (mem_forward.1 h)
    exact ⟨c', hend', mem_forward.2 hstep⟩
  | backward =>
    obtain ⟨c', hend', hstep⟩ := backwardStep_of_isEnd hp hbound hf hend (mem_backward.1 h)
    exact ⟨c', hend', mem_backward.2 hstep⟩

end Simulation

/-- The facts one step away where call strings are never cut: each has room for one more site. -/
def freeStep (p : Program) (d : Direction) (f : Fact) : List Fact :=
  step p (f.context.depth + 1) d f

/-- Under every bound that leaves room for a site calls push it on the whole string. -/
theorem freeStep_eq_step (p : Program) (d : Direction) (h : f.context.depth < k) :
    freeStep p d f = step p k d f := by
  have hfree : ∀ site, f.context.pushBounded site (f.context.depth + 1) = f.context.push site :=
    fun site => CallString.pushBounded_of_depth_lt _ _ (Nat.lt_succ_self _)
  have hroom : ∀ site, f.context.pushBounded site k = f.context.push site :=
    fun site => CallString.pushBounded_of_depth_lt _ _ h
  cases d with
  | forward => simp only [freeStep, step, forward, hfree, hroom]
  | backward => simp only [freeStep, step, backward, hfree, hroom]

/-- The steps keep to those of the direction under bounds that are not below `k`. -/
def Deepens (p : Program) (k : Nat) (d : Direction) (moves : Fact → List Fact) : Prop :=
  ∀ f g, g ∈ moves f → ∃ k', k ≤ k' ∧ g ∈ step p k' d f

theorem deepens_step (p : Program) (d : Direction) (h : k ≤ k') :
    Deepens p k d (step p k' d) :=
  fun _ _ hg => ⟨k', h, hg⟩

theorem deepens_freeStep (p : Program) (k : Nat) (d : Direction) :
    Deepens p k d (freeStep p d) := by
  intro f g hg
  refine ⟨max k (f.context.depth + 1), Nat.le_max_left _ _, ?_⟩
  rwa [freeStep_eq_step p d (Nat.le_max_right _ _)] at hg

/-- The first set holds nothing that the second does not hold under some call string. -/
def Covered (facts cover : Set Fact) : Prop := ∀ f ∈ facts, ∃ c, Fact.ofCell f.cell c ∈ cover

/-- A run is matched from seeds that have forgotten sites and under a smaller bound. -/
theorem exists_reached_of_isEnd (hp : p.WellFormed) (hk : p.KeepsToMethods)
    {moves : Fact → List Fact} (hmoves : Deepens p k d moves) {seeds outer : List Fact}
    (hseeds : ∀ f ∈ seeds, (∃ method, f.Placed p method) ∧
      ∃ c : CallString, c.IsEnd f.context ∧ Fact.ofCell f.cell c ∈ outer)
    (hf : f ∈ reached moves seeds) :
    (∃ method, f.Placed p method) ∧
      ∃ c : CallString, c.IsEnd f.context ∧ Fact.ofCell f.cell c ∈ reached (step p k d) outer := by
  induction hf with
  | seed hf =>
    obtain ⟨hplaced, c, hend, hmem⟩ := hseeds _ hf
    exact ⟨hplaced, c, hend, Reaches.seed hmem⟩
  | @step f g _ hg ih =>
    obtain ⟨⟨method, hplaced⟩, c, hend, hreached⟩ := ih
    obtain ⟨k', hbound, hstep⟩ := hmoves f g hg
    obtain ⟨method', hplaced', -⟩ := placed_of_step hp hk hplaced hstep
    obtain ⟨c', hend', hstep'⟩ := step_of_isEnd hp hbound hplaced hend hstep
    exact ⟨⟨method', hplaced'⟩, c', hend', Reaches.step hreached hstep'⟩

/-- Runs from a cell under strings that lead to its method reach no cell that runs from the
same cell under an unknown caller do not reach. -/
theorem covered_reached (hp : p.WellFormed) (hk : p.KeepsToMethods) {moves : Fact → List Fact}
    (hmoves : Deepens p k d moves) {c : Cell} (hc : p.Inside c.edge method) {seeds : Seeds}
    (hseeds : ∀ context ∈ seeds, context.Leads p method) :
    Covered (reached moves (Session.seedFacts c seeds))
      (reached (step p k d) (Session.seedFacts c (.singleton .empty))) := by
  intro f hf
  have hstart : ∀ f ∈ Session.seedFacts c seeds, (∃ method, f.Placed p method) ∧
      ∃ context : CallString, context.IsEnd f.context ∧
        Fact.ofCell f.cell context ∈ Session.seedFacts c (.singleton .empty) := by
    intro f hf
    obtain ⟨context, hmem, rfl⟩ := List.mem_map.1 hf
    exact ⟨⟨method, hc, hseeds context hmem⟩, .empty, CallString.empty_isEnd _,
      List.mem_map_of_mem List.mem_cons_self⟩
  obtain ⟨-, context, -, hreached⟩ := exists_reached_of_isEnd hp hk hmoves hstart hf
  exact ⟨context, hreached⟩

end GuidedDataflow.Flow
