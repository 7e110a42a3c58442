import GuidedDataflow.Proofs.Flow.Converse
import GuidedDataflow.Proofs.Solver.FactCover

/-!
Where facts stand. A fact is placed in a method if its edge lies there and its call string
leads there. Where edges keep to methods every step of either direction, under any bound, goes
from placed facts to placed facts, so a method only ever returns to calls of it; and where
statements use only locals of their own method, what holds in a method is a constant or a
local of it. What every step keeps holds of all that is reached from where it holds.
-/

namespace GuidedDataflow

/-- Both ends of the edge are statements of the method. -/
structure Program.Inside (p : Program) (e : Edge) (method : Signature) : Prop where
  start : (p.statement? e.start).map Statement.method = some method
  target : (p.statement? e.target).map Statement.method = some method

/-- Every edge joins two statements of one method. -/
def Program.KeepsToMethods (p : Program) : Prop :=
  ∀ e ∈ p.edges,
    (p.statement? e.start).map Statement.method = (p.statement? e.target).map Statement.method

instance (p : Program) : Decidable p.KeepsToMethods := inferInstanceAs (Decidable (∀ e ∈ _, _))

/-- The value is a constant or a local of the method. -/
def Value.OwnedBy (v : Value) (method : Signature) : Prop :=
  v.method? = none ∨ v.method? = some method

instance (v : Value) (method : Signature) : Decidable (v.OwnedBy method) :=
  inferInstanceAs (Decidable (_ ∨ _))

/-- Statements use only locals of their own method. -/
def Program.UsesOwnLocals (p : Program) : Prop :=
  ∀ s ∈ p.statements.toList, ∀ v ∈ s.values, v.OwnedBy s.method

instance (p : Program) : Decidable p.UsesOwnLocals := inferInstanceAs (Decidable (∀ s ∈ _, _))

/-- Some statement of the method mentions the value. -/
def Program.Mentions (p : Program) (method : Signature) (v : Value) : Prop :=
  ∃ s ∈ p.statements.toList, s.method = method ∧ v ∈ s.values

/-- The fact lies in the method, under a string that leads there. -/
structure Fact.Placed (f : Fact) (p : Program) (method : Signature) : Prop where
  edge : p.Inside f.edge method
  leads : f.context.Leads p method

namespace Program

variable {p : Program} {e : Edge} {id : StmtId} {s : Statement} {method : Signature}

theorem mentions_of_statement? {v : Value} (hs : p.statement? id = some s) (hv : v ∈ s.values) :
    p.Mentions s.method v :=
  ⟨s, mem_of_statement? hs, rfl, hv⟩

namespace Inside

variable (h : p.Inside e method)
include h

theorem method_start (hs : p.statement? e.start = some s) : s.method = method := by
  have hstart := h.start
  rw [hs] at hstart
  exact Option.some.inj hstart

theorem method_target (hs : p.statement? e.target = some s) : s.method = method := by
  have htarget := h.target
  rw [hs] at htarget
  exact Option.some.inj htarget

theorem eq {other : Signature} (h' : p.Inside e other) : method = other :=
  Option.some.inj (h.start.symm.trans h'.start)

end Inside

namespace KeepsToMethods

variable (hk : p.KeepsToMethods) (hp : p.WellFormed)
include hk hp

/-- An edge out of a statement lies in its method. -/
theorem inside_of_succEdges (he : e ∈ p.succEdges id) (hs : p.statement? id = some s) :
    p.Inside e s.method := by
  obtain ⟨hmem, rfl⟩ := hp.mem_succEdges_iff.1 he
  have hsame := hk e hmem
  rw [hs] at hsame
  exact ⟨by rw [hs]; rfl, hsame.symm⟩

/-- An edge into a statement lies in its method. -/
theorem inside_of_predEdges (he : e ∈ p.predEdges id) (hs : p.statement? id = some s) :
    p.Inside e s.method := by
  obtain ⟨hmem, rfl⟩ := hp.mem_predEdges_iff.1 he
  have hsame := hk e hmem
  rw [hs] at hsame
  exact ⟨hsame, by rw [hs]; rfl⟩

theorem exists_inside (he : e ∈ p.edges) : ∃ method, p.Inside e method := by
  obtain ⟨⟨s, hs⟩, -⟩ := hp.ends_of_mem_edges he
  exact ⟨_, hk.inside_of_succEdges hp (hp.mem_succEdges_iff.2 ⟨he, rfl⟩) hs⟩

end KeepsToMethods

end Program

namespace Flow

variable {p : Program} {k : Nat} {d : Direction} {f g : Fact} {method : Signature}

/-- The string left after a return leads to the method of the call returned to. -/
theorem leads_of_mem_returnSites {c caller : CallString} {site : StmtId} {s : Statement}
    (hc : c.Leads p method) (h : (site, caller) ∈ returnSites p method c)
    (hs : p.statement? site = some s) : caller.Leads p s.method := by
  rcases mem_returnSites.1 h with rfl | ⟨-, rfl, -⟩
  · obtain ⟨s', _, _, hs', -, -, houter⟩ := hc.of_push
    obtain rfl : s = s' := Option.some.inj (hs.symm.trans hs')
    exact houter
  · exact .empty _

/-- Whether the caller is known or not, a method returns to calls of it. -/
theorem mem_callersOf_of_mem_returnSites (hp : p.WellFormed) {c caller : CallString}
    {site : StmtId} (hc : c.Leads p method) (h : (site, caller) ∈ returnSites p method c) :
    site ∈ p.callersOf method := by
  obtain ⟨s, result, call, hs, ha, htarget⟩ := call_of_mem_returnSites hp hc h
  exact (hp.callers _ _).2 ⟨s, hs, result, call, ha, htarget⟩

section Placed

variable (hp : p.WellFormed) (hk : p.KeepsToMethods) (hf : f.Placed p method)
include hp hk hf

theorem placed_of_forwardStep (h : ForwardStep p k f g) :
    ∃ method', g.Placed p method' ∧
      ((method' = method ∧ g.value = f.value) ∨ p.Mentions method' g.value) := by
  cases h with
  | within hs hcarries he =>
    have hmethod := hf.edge.method_target hs
    refine ⟨method, ⟨hmethod ▸ hk.inside_of_succEdges hp he hs, hf.leads⟩, ?_⟩
    rcases Statement.eq_or_assigned_of_carries hcarries with rfl | hassigned
    · exact .inl ⟨rfl, rfl⟩
    · exact .inr (hmethod ▸ Program.mentions_of_statement? hs
        (Statement.mem_values_of_assigned hassigned))
  | @enter s t result call callee formal formal' id e w hs ha hm hid _ ht hta he =>
    obtain ⟨hmethod, -⟩ := hp.method_of_mem_identities hm ht hid
    have hleads : f.context.Leads p s.method := hf.edge.method_target hs ▸ hf.leads
    refine ⟨t.method, ⟨hk.inside_of_succEdges hp he ht, ?_⟩, .inr ?_⟩
    · rw [hmethod]
      exact (CallString.Leads.push hleads hs ha).truncate k
    · exact Program.mentions_of_statement? ht
        (Statement.mem_values_of_assigned (Statement.assigned?_identity hta))
  | @leave s t site caller e w hs _ hsite ht hleft he =>
    have hleads : f.context.Leads p s.method := hf.edge.method_target hs ▸ hf.leads
    exact ⟨t.method, ⟨hk.inside_of_succEdges hp he ht, leads_of_mem_returnSites hleads hsite ht⟩,
      .inr (Program.mentions_of_statement? ht (Statement.mem_values_of_left hleft))⟩

theorem placed_of_backwardStep (h : BackwardStep p k f g) :
    ∃ method', g.Placed p method' ∧
      ((method' = method ∧ g.value = f.value) ∨ p.Mentions method' g.value) := by
  cases h with
  | within hs hrecalls he =>
    have hmethod := hf.edge.method_start hs
    refine ⟨method, ⟨hmethod ▸ hk.inside_of_predEdges hp he hs, hf.leads⟩, ?_⟩
    rcases Statement.eq_or_right_of_recalls hrecalls with rfl | ⟨hright, -⟩
    · exact .inl ⟨rfl, rfl⟩
    · exact .inr (hmethod ▸ Program.mentions_of_statement? hs
        (Statement.mem_values_of_right hright))
  | @enter s t call callee id e v hs ha hm hid ht hreturned _ he =>
    obtain ⟨hmethod, -⟩ := hp.method_of_mem_returns hm ht hid
    have hleads : f.context.Leads p s.method := hf.edge.method_start hs ▸ hf.leads
    refine ⟨t.method, ⟨hk.inside_of_predEdges hp he ht, ?_⟩, .inr ?_⟩
    · rw [hmethod]
      exact (CallString.Leads.push hleads hs ha).truncate k
    · exact Program.mentions_of_statement? ht (Statement.mem_values_of_returned hreturned)
  | @leave s t formal site caller call e v hs _ hsite ht hcall hactual _ he =>
    have hleads : f.context.Leads p s.method := hf.edge.method_start hs ▸ hf.leads
    exact ⟨t.method, ⟨hk.inside_of_predEdges hp he ht, leads_of_mem_returnSites hleads hsite ht⟩,
      .inr (Program.mentions_of_statement? ht (Statement.mem_values_of_actual hcall hactual))⟩

/-- A step leads to a placed fact, about the same value in the same method or about a value that
the method mentions. -/
theorem placed_of_step (h : g ∈ step p k d f) :
    ∃ method', g.Placed p method' ∧
      ((method' = method ∧ g.value = f.value) ∨ p.Mentions method' g.value) := by
  cases d with
  | forward => exact placed_of_forwardStep hp hk hf (mem_forward.1 h)
  | backward => exact placed_of_backwardStep hp hk hf (mem_backward.1 h)

end Placed

theorem depth_le_of_mem_returnSites {c caller : CallString} {site : StmtId}
    (h : (site, caller) ∈ returnSites p method c) : caller.depth ≤ c.depth := by
  rcases mem_returnSites.1 h with rfl | ⟨-, rfl, -⟩
  · rw [CallString.depth_push]
    exact Nat.le_succ _
  · exact Nat.zero_le _

/-- Steps keep within the bound on call strings. -/
theorem depth_le_of_step (hf : f.context.depth ≤ k) (h : g ∈ step p k d f) :
    g.context.depth ≤ k := by
  cases d with
  | forward =>
    cases mem_forward.1 h with
    | within => exact hf
    | enter => exact CallString.depth_pushBounded_le _ _ _
    | leave _ _ hsite => exact (depth_le_of_mem_returnSites hsite).trans hf
  | backward =>
    cases mem_backward.1 h with
    | within => exact hf
    | enter => exact CallString.depth_pushBounded_le _ _ _
    | leave _ _ hsite => exact (depth_le_of_mem_returnSites hsite).trans hf

/-- Whatever the edge of a fact, steps from it lead to edges of the program. -/
theorem edge_mem_of_step (hp : p.WellFormed) (h : g ∈ step p k d f) : g.edge ∈ p.edges := by
  cases d with
  | forward =>
    cases mem_forward.1 h with
    | within _ _ he => exact (hp.mem_succEdges_iff.1 he).1
    | enter _ _ _ _ _ _ _ he => exact (hp.mem_succEdges_iff.1 he).1
    | leave _ _ _ _ _ he => exact (hp.mem_succEdges_iff.1 he).1
  | backward =>
    cases mem_backward.1 h with
    | within _ _ he => exact (hp.mem_predEdges_iff.1 he).1
    | enter _ _ _ _ _ _ _ he => exact (hp.mem_predEdges_iff.1 he).1
    | leave _ _ _ _ _ _ _ he => exact (hp.mem_predEdges_iff.1 he).1

/-- Steps of both directions keep the property. -/
def Stable (p : Program) (k : Nat) (P : Fact → Prop) : Prop :=
  ∀ d f g, P f → g ∈ step p k d f → P g

/-- What steps keep and the cell has under the seeds holds of every fact that is reached. -/
theorem Stable.reached {P : Fact → Prop} (h : Stable p k P) {c : Cell} {seeds : Seeds}
    (hseeds : ∀ context ∈ seeds, P (.ofCell c context))
    (hf : f ∈ reached (step p k d) (Session.seedFacts c seeds)) : P f := by
  induction hf with
  | seed hf =>
    obtain ⟨context, hcontext, rfl⟩ := List.mem_map.1 hf
    exact hseeds context hcontext
  | step _ hg ih => exact h _ _ _ ih hg

end Flow

end GuidedDataflow
