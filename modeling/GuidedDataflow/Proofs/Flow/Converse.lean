import GuidedDataflow.Proofs.Flow.Pushdown
import GuidedDataflow.Proofs.Flow.Steps

/-!
The two directions of transfer as one call graph and its converse. The two agree where a fact
can be followed back the way it came: on edges of the program, for locals, under call strings
whose sites really call the methods they stand for. In a regular program every step keeps to
such facts.
-/

namespace GuidedDataflow

/-- Edges stay inside methods, none leaves a return, and only locals are assigned. -/
structure Program.Regular (p : Program) : Prop where
  same_method : ∀ e ∈ p.edges,
    (p.statement? e.start).map Statement.method = (p.statement? e.target).map Statement.method
  not_return : ∀ e ∈ p.edges, (p.statement? e.start).any Statement.isReturn = false
  assigns_local : ∀ s ∈ p.statements.toList, s.assigned?.all Value.isLocal = true

/-- No edge leaves a return. -/
def Program.StopsAtReturns (p : Program) : Prop :=
  ∀ e ∈ p.edges, (p.statement? e.start).any Statement.isReturn = false

instance (p : Program) : Decidable p.StopsAtReturns := inferInstanceAs (Decidable (∀ e ∈ _, _))

/-- The method can have been entered through the sites of the string. -/
inductive CallString.Leads (p : Program) : CallString → Signature → Prop
  | empty (method : Signature) : Leads p .empty method
  | push {c : CallString} {site : StmtId} {s : Statement} {result : Option Value} {call : Call}
      (outer : Leads p c s.method) (at_site : p.statement? site = some s)
      (action : s.action = .invoke result call) : Leads p (c.push site) call.target

/-- A local on an edge of the program. -/
structure Cell.Proper (c : Cell) (p : Program) : Prop where
  edge : c.edge ∈ p.edges
  isLocal : c.value.isLocal = true

/-- A proper cell under a string that leads to its method. -/
structure Fact.Grounded (f : Fact) (p : Program) : Prop where
  proper : f.cell.Proper p
  leads : ∀ s, p.statement? f.edge.start = some s ∨ p.statement? f.edge.target = some s →
    f.context.Leads p s.method

namespace Program

/-- The forward steps between proper cells. -/
def flowGraph (p : Program) : CallGraph Cell where
  within a b := a.Proper p ∧ b.Proper p ∧ a.edge.target = b.edge.start ∧
    ∃ s, p.statement? b.edge.start = some s ∧ s.action.Carries a.value b.value
  enter a site b := a.Proper p ∧ b.Proper p ∧ a.edge.target = site ∧
    ∃ s result call t formal, p.statement? site = some s ∧ s.action = .invoke result call ∧
      p.statement? b.edge.start = some t ∧ t.method = call.target ∧
      t.action = .identity b.value formal ∧ call.actual? formal = some a.value
  leave a site b := a.Proper p ∧ b.Proper p ∧ b.edge.start = site ∧
    ∃ s t call, p.statement? a.edge.target = some s ∧ s.action = .ret (some a.value) ∧
      p.statement? site = some t ∧ t.action = .invoke (some b.value) call ∧
      call.target = s.method

/-- The steps of either direction. -/
def graph (p : Program) : Direction → CallGraph Cell
  | .forward => p.flowGraph
  | .backward => p.flowGraph.converse

end Program

namespace CallString.Leads

variable {p : Program} {c : CallString} {method : Signature}

theorem of_push {site : StmtId} (h : (c.push site).Leads p method) :
    ∃ s result call, p.statement? site = some s ∧ s.action = .invoke result call ∧
      call.target = method ∧ c.Leads p s.method := by
  generalize hpush : c.push site = top at h
  cases h with
  | empty => exact (push_ne_empty _ _ hpush).elim
  | push outer at_site action =>
    obtain ⟨rfl, rfl⟩ := push_inj.1 hpush
    exact ⟨_, _, _, at_site, action, rfl, outer⟩

theorem truncate (h : c.Leads p method) (bound : Nat) : (c.truncate bound).Leads p method := by
  induction h generalizing bound with
  | empty method =>
    rw [truncate_empty]
    exact .empty method
  | push _ at_site action ih =>
    cases bound with
    | zero =>
      rw [truncate_zero]
      exact .empty _
    | succ bound =>
      rw [truncate_push_succ]
      exact .push (ih bound) at_site action

end CallString.Leads

/-- Unless the action is a return, what is looked for before it leads to what is looked for
after it. -/
theorem Action.carries_of_recalls {action : Action} {v w : Value}
    (hret : ∀ value, action ≠ .ret value) (h : action.Recalls w v) : action.Carries v w := by
  cases action with
  | assign target source =>
    rcases h with ⟨rfl, -, rfl⟩ | ⟨hne, rfl⟩
    · exact .inl ⟨rfl, rfl⟩
    · exact .inr ⟨hne, rfl⟩
  | identity target formal =>
    obtain ⟨hne, rfl⟩ := h
    exact ⟨hne, rfl⟩
  | invoke result call =>
    obtain ⟨hne, rfl⟩ := h
    exact ⟨hne, rfl⟩
  | ret value => exact (hret value rfl).elim
  | nop => exact Eq.symm h

theorem Action.recalls_of_carries {action : Action} {v w : Value} (hv : v.isLocal = true)
    (h : action.Carries v w) : action.Recalls w v := by
  cases action with
  | assign target source =>
    rcases h with ⟨rfl, rfl⟩ | ⟨hne, rfl⟩
    · exact .inl ⟨rfl, hv, rfl⟩
    · exact .inr ⟨hne, rfl⟩
  | identity target formal =>
    obtain ⟨hne, rfl⟩ := h
    exact ⟨hne, rfl⟩
  | invoke result call =>
    obtain ⟨hne, rfl⟩ := h
    exact ⟨hne, rfl⟩
  | ret value => exact h.elim
  | nop => exact Eq.symm h

theorem Program.StopsAtReturns.ne_ret {p : Program} (h : p.StopsAtReturns) {e : Edge}
    (he : e ∈ p.edges) {s : Statement} (hs : p.statement? e.start = some s)
    (value : Option Value) : s.action ≠ .ret value := by
  intro ha
  have hnot := h e he
  simp [hs, Statement.isReturn, ha] at hnot

namespace Program.Regular

variable {p : Program} (hr : p.Regular)
include hr

theorem stopsAtReturns : p.StopsAtReturns := hr.not_return

theorem isLocal_of_assigned {id : StmtId} {s : Statement} {v : Value}
    (hs : p.statement? id = some s) (hv : s.assigned? = some v) : v.isLocal = true := by
  have h := hr.assigns_local s (mem_of_statement? hs)
  rwa [hv] at h

theorem method_eq {e : Edge} (he : e ∈ p.edges) {s t : Statement}
    (hs : p.statement? e.start = some s) (ht : p.statement? e.target = some t) :
    s.method = t.method := by
  have h := hr.same_method e he
  rw [hs, ht] at h
  exact Option.some.inj h

/-- A string that leads to one end of an edge leads to the method of both. -/
theorem grounded {f : Fact} (hf : f.cell.Proper p) {s : Statement}
    (hs : p.statement? f.edge.start = some s ∨ p.statement? f.edge.target = some s)
    (hleads : f.context.Leads p s.method) : f.Grounded p := by
  have he : f.edge ∈ p.edges := hf.edge
  refine ⟨hf, fun t ht => ?_⟩
  have hmethod : t.method = s.method := by
    rcases hs with hs | hs <;> rcases ht with ht | ht
    · rw [Option.some.inj (ht.symm.trans hs)]
    · exact (hr.method_eq he hs ht).symm
    · exact hr.method_eq he ht hs
    · rw [Option.some.inj (ht.symm.trans hs)]
  rwa [hmethod]

end Program.Regular

namespace Flow

variable {p : Program} {k : Nat} {f g : Fact}

/-- A method returns to a call of it. -/
theorem call_of_mem_returnSites (hp : p.WellFormed) {method : Signature} {c caller : CallString}
    {site : StmtId} (hc : c.Leads p method) (h : (site, caller) ∈ returnSites p method c) :
    ∃ s result call, p.statement? site = some s ∧ s.action = .invoke result call ∧
      call.target = method := by
  rcases mem_returnSites.1 h with rfl | ⟨-, -, hcaller⟩
  · obtain ⟨s, result, call, hs, ha, htarget, -⟩ := hc.of_push
    exact ⟨s, result, call, hs, ha, htarget⟩
  · obtain ⟨s, hs, result, call, ha, htarget⟩ := (hp.callers _ _).1 hcaller
    exact ⟨s, result, call, hs, ha, htarget⟩

theorem invoke_of_mem_returnSites (hp : p.WellFormed) {method : Signature} {c caller : CallString}
    {site : StmtId} {t : Statement} (hc : c.Leads p method)
    (h : (site, caller) ∈ returnSites p method c) (ht : p.statement? site = some t) :
    ∃ result call, t.action = .invoke result call ∧ call.target = method := by
  obtain ⟨t', result, call, ht', hta, htarget⟩ := call_of_mem_returnSites hp hc h
  obtain rfl : t = t' := Option.some.inj (ht.symm.trans ht')
  exact ⟨result, call, hta, htarget⟩

/-- Leaving a method is a step back to the call on top of the string, or to any call. -/
theorem step_of_mem_returnSites {G : CallGraph Cell} {method : Signature} {c caller : CallString}
    {site : StmtId} {a b : Cell} (h : (site, caller) ∈ returnSites p method c)
    (hleave : G.leave a site b) : G.Step k (a, c) (b, caller) := by
  rcases mem_returnSites.1 h with rfl | ⟨rfl, rfl, -⟩
  · exact .leave hleave
  · exact .leaveUnknown hleave

theorem step_of_forwardStep (hp : p.WellFormed) (hr : p.Regular) (hf : f.Grounded p)
    (h : ForwardStep p k f g) :
    p.flowGraph.Step k (f.cell, f.context) (g.cell, g.context) := by
  cases h with
  | @within s e w hs hcarries he =>
    obtain ⟨he, hjoin⟩ := hp.mem_succEdges_iff.1 he
    have hw : w.isLocal = true := by
      rcases Statement.eq_or_assigned_of_carries hcarries with rfl | hassigned
      · exact hf.proper.isLocal
      · exact hr.isLocal_of_assigned hs hassigned
    rw [← hjoin] at hs
    exact .within ⟨hf.proper, ⟨he, hw⟩, hjoin.symm, s, hs, hcarries⟩
  | @enter s t result call callee formal formal' id e w hs ha hm hid hactual ht hta he =>
    obtain ⟨he, hjoin⟩ := hp.mem_succEdges_iff.1 he
    obtain ⟨hmethod, target, hta'⟩ := hp.method_of_mem_identities hm ht hid
    obtain ⟨rfl, rfl⟩ : target = w ∧ formal = formal' := by
      rw [hta] at hta'
      cases hta'
      exact ⟨rfl, rfl⟩
    have hw : target.isLocal = true :=
      hr.isLocal_of_assigned ht (Statement.assigned?_identity hta)
    rw [← hjoin] at ht
    exact .enter ⟨hf.proper, ⟨he, hw⟩, rfl, s, result, call, t, formal, hs, ha, ht, hmethod, hta,
      hactual⟩
  | @leave s t site caller e w hs ha hsite ht hleft he =>
    obtain ⟨he, hjoin⟩ := hp.mem_succEdges_iff.1 he
    obtain ⟨result, call, hta, htarget⟩ :=
      invoke_of_mem_returnSites hp (hf.leads s (.inr hs)) hsite ht
    obtain rfl : result = some w := by simpa [Statement.left?, hta] using hleft
    have hw : w.isLocal = true := hr.isLocal_of_assigned ht (Statement.assigned?_invoke hta)
    exact step_of_mem_returnSites hsite
      ⟨hf.proper, ⟨he, hw⟩, hjoin, s, t, call, hs, ha, ht, hta, htarget⟩

theorem forwardStep_of_leave (hp : p.WellFormed) {e e' : Edge} {v w : Value} {c c' : CallString}
    {site : StmtId} (h : p.flowGraph.leave ⟨e, v⟩ site ⟨e', w⟩)
    (hsite : ∀ s, p.statement? e.target = some s → site ∈ p.callersOf s.method →
      (site, c') ∈ returnSites p s.method c) : ForwardStep p k ⟨e, v, c⟩ ⟨e', w, c'⟩ := by
  obtain ⟨-, hb, hjoin, s, t, call, hs, ha, ht, hta, htarget⟩ := h
  have hcaller : site ∈ p.callersOf s.method := (hp.callers _ _).2 ⟨t, ht, _, call, hta, htarget⟩
  exact .leave hs ha (hsite s hs hcaller) ht (by simp [Statement.left?, hta])
    (hp.mem_succEdges_iff.2 ⟨hb.edge, hjoin⟩)

theorem forwardStep_of_step (hp : p.WellFormed)
    (h : p.flowGraph.Step k (f.cell, f.context) (g.cell, g.context)) : ForwardStep p k f g := by
  obtain ⟨e, v, c⟩ := f
  obtain ⟨e', w, c'⟩ := g
  cases h with
  | within h =>
    obtain ⟨-, hb, hjoin, s, hs, hcarries⟩ := h
    exact .within (hjoin ▸ hs) hcarries (hp.mem_succEdges_iff.2 ⟨hb.edge, hjoin.symm⟩)
  | enter h =>
    obtain ⟨-, hb, rfl, s, result, call, t, formal, hs, ha, ht, hmethod, hta, hactual⟩ := h
    obtain ⟨callee, hm⟩ := hp.declared _ _ ht
    have hid : (formal, e'.start) ∈ callee.identities :=
      ((hp.indexes _ _ hm).identities _ _).2 ⟨t, ht, rfl, w, hta⟩
    rw [hmethod] at hm
    exact .enter hs ha hm hid hactual ht hta (hp.mem_succEdges_iff.2 ⟨hb.edge, rfl⟩)
  | leave h => exact forwardStep_of_leave hp h fun s _ _ => mem_returnSites.2 (.inl rfl)
  | leaveUnknown h =>
    exact forwardStep_of_leave hp h fun s _ hcaller =>
      mem_returnSites.2 (.inr ⟨rfl, rfl, hcaller⟩)

theorem step_of_backwardStep (hp : p.WellFormed) (hr : p.Regular) (hf : f.Grounded p)
    (h : BackwardStep p k f g) :
    p.flowGraph.converse.Step k (f.cell, f.context) (g.cell, g.context) := by
  cases h with
  | @within s e v hs hrecalls he =>
    obtain ⟨he, hjoin⟩ := hp.mem_predEdges_iff.1 he
    have hv : v.isLocal = true := by
      rcases Statement.eq_or_right_of_recalls hrecalls with rfl | ⟨-, hlocal⟩
      · exact hf.proper.isLocal
      · exact hlocal
    have hcarries := Action.carries_of_recalls (hr.stopsAtReturns.ne_ret hf.proper.edge hs) hrecalls
    exact .within ⟨⟨he, hv⟩, hf.proper, hjoin, s, hs, hcarries⟩
  | @enter s t call callee id e v hs ha hm hid ht hreturned hv he =>
    obtain ⟨he, hjoin⟩ := hp.mem_predEdges_iff.1 he
    obtain ⟨hmethod, value, hta⟩ := hp.method_of_mem_returns hm ht hid
    obtain rfl : value = some v := by simpa [Statement.returned?, hta] using hreturned
    rw [← hjoin] at ht
    exact .enter ⟨⟨he, hv⟩, hf.proper, rfl, t, s, call, ht, hta, hs, ha, hmethod.symm⟩
  | @leave s t formal site caller call e v hs ha hsite ht hcall hactual hv he =>
    obtain ⟨he, hjoin⟩ := hp.mem_predEdges_iff.1 he
    obtain ⟨result, call', hta, htarget⟩ :=
      invoke_of_mem_returnSites hp (hf.leads s (.inl hs)) hsite ht
    obtain rfl : call' = call := by simpa [Statement.call?, hta] using hcall
    exact step_of_mem_returnSites (G := p.flowGraph.converse) hsite
      ⟨⟨he, hv⟩, hf.proper, hjoin, t, result, call', s, formal, ht, hta, hs, htarget.symm, ha,
        hactual⟩

theorem backwardStep_of_leave (hp : p.WellFormed) {e e' : Edge} {v w : Value} {c c' : CallString}
    {site : StmtId} (h : p.flowGraph.enter ⟨e, v⟩ site ⟨e', w⟩)
    (hsite : ∀ s, p.statement? e'.start = some s → site ∈ p.callersOf s.method →
      (site, c) ∈ returnSites p s.method c') : BackwardStep p k ⟨e', w, c'⟩ ⟨e, v, c⟩ := by
  obtain ⟨hb, -, hjoin, s, result, call, t, formal, hs, ha, ht, hmethod, hta, hactual⟩ := h
  have hcaller : site ∈ p.callersOf t.method :=
    (hp.callers _ _).2 ⟨s, hs, result, call, ha, hmethod.symm⟩
  exact .leave ht hta (hsite t ht hcaller) hs (by simp [Statement.call?, ha]) hactual hb.isLocal
    (hp.mem_predEdges_iff.2 ⟨hb.edge, hjoin⟩)

theorem backwardStep_of_step (hp : p.WellFormed)
    (h : p.flowGraph.converse.Step k (f.cell, f.context) (g.cell, g.context)) :
    BackwardStep p k f g := by
  obtain ⟨e', w, c'⟩ := f
  obtain ⟨e, v, c⟩ := g
  cases h with
  | within h =>
    obtain ⟨hb, -, hjoin, s, hs, hcarries⟩ := h
    exact .within hs (Action.recalls_of_carries hb.isLocal hcarries)
      (hp.mem_predEdges_iff.2 ⟨hb.edge, hjoin⟩)
  | enter h =>
    obtain ⟨hb, -, rfl, s, t, call, hs, ha, ht, hta, htarget⟩ := h
    obtain ⟨callee, hm⟩ := hp.declared _ _ hs
    have hid : e.target ∈ callee.returns := ((hp.indexes _ _ hm).returns _).2 ⟨s, hs, rfl, _, ha⟩
    rw [← htarget] at hm
    have hreturned : s.returned? = some v := by
      rw [Statement.returned?, ha]
      rfl
    exact .enter ht hta hm hid hs hreturned hb.isLocal (hp.mem_predEdges_iff.2 ⟨hb.edge, rfl⟩)
  | leave h => exact backwardStep_of_leave hp h fun s _ _ => mem_returnSites.2 (.inl rfl)
  | leaveUnknown h =>
    exact backwardStep_of_leave hp h fun s _ hcaller =>
      mem_returnSites.2 (.inr ⟨rfl, rfl, hcaller⟩)

/-- On grounded facts the transfer of a direction takes exactly the steps of its graph. -/
theorem mem_step_iff (hp : p.WellFormed) (hr : p.Regular) (d : Direction) (hf : f.Grounded p) :
    g ∈ step p k d f ↔ (p.graph d).Step k (f.cell, f.context) (g.cell, g.context) := by
  cases d with
  | forward =>
    rw [step, mem_forward]
    exact ⟨step_of_forwardStep hp hr hf, forwardStep_of_step hp⟩
  | backward =>
    rw [step, mem_backward]
    exact ⟨step_of_backwardStep hp hr hf, backwardStep_of_step hp⟩

theorem grounded_of_forward (hr : p.Regular) (hf : f.Grounded p)
    (h : p.flowGraph.Step k (f.cell, f.context) (g.cell, g.context)) : g.Grounded p := by
  obtain ⟨e, v, c⟩ := f
  obtain ⟨e', w, c'⟩ := g
  cases h with
  | within h =>
    obtain ⟨-, hb, hjoin, s, hs, -⟩ := h
    exact hr.grounded hb (.inl hs) (hf.leads s (.inr (hjoin ▸ hs)))
  | enter h =>
    obtain ⟨-, hb, rfl, s, result, call, t, formal, hs, ha, ht, hmethod, -⟩ := h
    refine hr.grounded hb (.inl ht) ?_
    rw [hmethod]
    exact (CallString.Leads.push (hf.leads s (.inr hs)) hs ha).truncate k
  | leave h =>
    obtain ⟨-, hb, rfl, s, t, call, hs, -, ht, -⟩ := h
    obtain ⟨t', _, _, ht', -, -, houter⟩ := (hf.leads s (.inr hs)).of_push
    obtain rfl : t = t' := Option.some.inj (ht.symm.trans ht')
    exact hr.grounded hb (.inl ht) houter
  | leaveUnknown h =>
    obtain ⟨-, hb, rfl, s, t, call, -, -, ht, -⟩ := h
    exact hr.grounded hb (.inl ht) (.empty _)

theorem grounded_of_backward (hr : p.Regular) (hf : f.Grounded p)
    (h : p.flowGraph.converse.Step k (f.cell, f.context) (g.cell, g.context)) :
    g.Grounded p := by
  obtain ⟨e', w, c'⟩ := f
  obtain ⟨e, v, c⟩ := g
  cases h with
  | within h =>
    obtain ⟨hb, -, hjoin, s, hs, -⟩ := h
    exact hr.grounded hb (.inr (hjoin ▸ hs)) (hf.leads s (.inl hs))
  | enter h =>
    obtain ⟨hb, -, rfl, s, t, call, hs, -, ht, hta, htarget⟩ := h
    refine hr.grounded hb (.inr hs) ?_
    rw [← htarget]
    exact (CallString.Leads.push (hf.leads t (.inl ht)) ht hta).truncate k
  | leave h =>
    obtain ⟨hb, -, rfl, s, result, call, t, formal, hs, -, ht, -⟩ := h
    obtain ⟨s', _, _, hs', -, -, houter⟩ := (hf.leads t (.inl ht)).of_push
    obtain rfl : s = s' := Option.some.inj (hs.symm.trans hs')
    exact hr.grounded hb (.inr hs) houter
  | leaveUnknown h =>
    obtain ⟨hb, -, rfl, s, result, call, t, formal, hs, -⟩ := h
    exact hr.grounded hb (.inr hs) (.empty _)

theorem grounded_step (hr : p.Regular) (d : Direction) (hf : f.Grounded p)
    (h : (p.graph d).Step k (f.cell, f.context) (g.cell, g.context)) : g.Grounded p := by
  cases d with
  | forward => exact grounded_of_forward hr hf h
  | backward => exact grounded_of_backward hr hf h

end Flow

end GuidedDataflow
