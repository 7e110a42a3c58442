import GuidedDataflow.Proofs.Flow.Placement

/-!
Walking back the way that a backward run came. Where no edge leaves a return, each backward step
can be retraced by a forward step: what was looked for carries over, a callee entered through a
return is left to the call, and a method left for a caller is entered from there. The call
strings of the two runs need not be the same, since either may have forgotten sites that the
other still has; they agree as far as both remember, and that is all the steps depend on.
-/

namespace GuidedDataflow

/-- A placed fact on an edge of the program, under a string within the bound. -/
structure Fact.Traceable (f : Fact) (p : Program) (bound : Nat) : Prop where
  edge_mem : f.edge ∈ p.edges
  placed : ∃ method, f.Placed p method
  depth_le : f.context.depth ≤ bound

namespace Flow

variable {p : Program} {k : Nat} {f g : Fact}

theorem stable_traceable (hp : p.WellFormed) (hk : p.KeepsToMethods) :
    Stable p k (·.Traceable p k) := by
  rintro d f g ⟨-, ⟨method, hplaced⟩, hdepth⟩ hg
  obtain ⟨method', hplaced', -⟩ := placed_of_step hp hk hplaced hg
  exact ⟨edge_mem_of_step hp hg, ⟨method', hplaced'⟩, depth_le_of_step hdepth hg⟩

section Returns

variable {method : Signature} {c d caller : CallString} {site : StmtId}

/-- The return to a call retraces the step into the method from there. -/
theorem exists_returnSites_of_agrees (hsite : site ∈ p.callersOf method) (hd : d.depth ≤ k)
    (h : (c.pushBounded site k).Agrees d) : ∃ outer : CallString,
      outer.depth ≤ k ∧ c.Agrees outer ∧ (site, outer) ∈ returnSites p method d := by
  rcases h.of_pushBounded hd with rfl | ⟨outer, rfl, hagrees⟩
  · exact ⟨.empty, hd, .empty_right c, mem_returnSites.2 (.inr ⟨rfl, rfl, hsite⟩)⟩
  · rw [CallString.depth_push] at hd
    exact ⟨outer, Nat.le_of_succ_le hd, hagrees, mem_returnSites.2 (.inl rfl)⟩

/-- The call of a method retraces the step from there to the caller. -/
theorem agrees_pushBounded_of_mem_returnSites (hc : c.depth ≤ k)
    (h : (site, caller) ∈ returnSites p method c) (hd : caller.Agrees d) :
    c.Agrees (d.pushBounded site k) := by
  rcases mem_returnSites.1 h with rfl | ⟨rfl, -, -⟩
  · have hwhole : caller.pushBounded site k = caller.push site :=
      CallString.truncate_of_depth_le _ hc
    rw [← hwhole]
    exact hd.pushBounded site k
  · exact .empty_left _

end Returns

/-- A backward step is retraced from every string that agrees with the one it leads to. -/
theorem forwardStep_of_backwardStep (hp : p.WellFormed) (hret : p.StopsAtReturns)
    (hf : f.Traceable p k) (h : BackwardStep p k f g) {c : CallString} (hdepth : c.depth ≤ k)
    (hc : g.context.Agrees c) :
    ∃ c' : CallString, c'.depth ≤ k ∧ f.context.Agrees c' ∧
      ForwardStep p k (Fact.ofCell g.cell c) (Fact.ofCell f.cell c') := by
  have hedge : f.edge ∈ p.succEdges f.edge.start := hp.mem_succEdges_iff.2 ⟨hf.edge_mem, rfl⟩
  cases h with
  | within hs hrecalls he =>
    obtain ⟨-, hjoin⟩ := hp.mem_predEdges_iff.1 he
    have hcarries := Action.carries_of_recalls (hret.ne_ret hf.edge_mem hs) hrecalls
    rw [← hjoin] at hs hedge
    exact ⟨c, hdepth, hc, .within hs hcarries hedge⟩
  | @enter s t call callee id e v hs ha hm hid ht hreturned _ he =>
    -- the callee is left by the return that it was entered through
    obtain ⟨-, rfl⟩ := hp.mem_predEdges_iff.1 he
    obtain ⟨hmethod, value, hta⟩ := hp.method_of_mem_returns hm ht hid
    obtain rfl : value = some v := by simpa [Statement.returned?, hta] using hreturned
    have hcaller : f.edge.start ∈ p.callersOf t.method :=
      (hp.callers _ _).2 ⟨s, hs, _, call, ha, hmethod.symm⟩
    have hleft : s.left? = some f.value := by rw [Statement.left?, ha]
    obtain ⟨outer, houter, hagrees, hsite⟩ := exists_returnSites_of_agrees hcaller hdepth hc
    exact ⟨outer, houter, hagrees, .leave ht hta hsite hs hleft hedge⟩
  | @leave s t formal site caller call e v hs ha hsite ht hcall hactual _ he =>
    -- the method is entered by the call that it was left for
    obtain ⟨-, rfl⟩ := hp.mem_predEdges_iff.1 he
    obtain ⟨method, hplaced⟩ := hf.placed
    have hleads := hplaced.edge.method_start hs ▸ hplaced.leads
    obtain ⟨result, call', hta, htarget⟩ := invoke_of_mem_returnSites hp hleads hsite ht
    obtain rfl : call' = call := by simpa [Statement.call?, hta] using hcall
    obtain ⟨callee, hm⟩ := hp.declared _ _ hs
    have hid : (formal, f.edge.start) ∈ callee.identities :=
      ((hp.indexes _ _ hm).identities _ _).2 ⟨s, hs, rfl, f.value, ha⟩
    rw [← htarget] at hm
    exact ⟨c.pushBounded e.target k, CallString.depth_pushBounded_le ..,
      agrees_pushBounded_of_mem_returnSites hf.depth_le hsite hc,
      .enter ht hta hm hid hactual hs ha hedge⟩

/-- Wherever a backward run has come, a forward run that has the same cell under a string that
agrees comes back to the cell the backward run started from. -/
theorem exists_forward_of_backward (hp : p.WellFormed) (hk : p.KeepsToMethods)
    (hret : p.StopsAtReturns) {origin : Cell} {seeds : Seeds}
    (hseeds : ∀ context ∈ seeds, (Fact.ofCell origin context).Traceable p k)
    (hf : f ∈ reached (step p k .backward) (Session.seedFacts origin seeds))
    {start : List Fact} {c : CallString} (hdepth : c.depth ≤ k) (hc : f.context.Agrees c)
    (hmem : Fact.ofCell f.cell c ∈ reached (step p k .forward) start) :
    ∃ c', Fact.ofCell origin c' ∈ reached (step p k .forward) start := by
  induction hf generalizing c with
  | seed hf =>
    obtain ⟨context, -, rfl⟩ := List.mem_map.1 hf
    exact ⟨c, hmem⟩
  | @step f g hreached hg ih =>
    have htraceable := (stable_traceable hp hk).reached hseeds hreached
    obtain ⟨c', hdepth', hagrees, hstep⟩ :=
      forwardStep_of_backwardStep hp hret htraceable (mem_backward.1 hg) hdepth hc
    exact ih hdepth' hagrees (Reaches.step hmem (mem_forward.2 hstep))

end Flow

end GuidedDataflow
