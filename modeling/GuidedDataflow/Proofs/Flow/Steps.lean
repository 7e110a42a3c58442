import GuidedDataflow.Flow.Transfer
import GuidedDataflow.Proofs.Program.Edges
import GuidedDataflow.Proofs.Query.CallString

/-!
What one transfer step can do. A step stays within its method, enters a callee or leaves it;
each direction has one relation with these three cases, and the transfer function lists
exactly the related facts. Later arguments look at the relations only.
-/

namespace GuidedDataflow

/-- The value `w` holds after the action because `v` held before it. -/
def Action.Carries : Action → Value → Value → Prop
  | .assign target source, v, w => (source = v ∧ w = target) ∨ (target ≠ v ∧ w = v)
  | .identity target _, v, w => target ≠ v ∧ w = v
  | .invoke result _, v, w => result ≠ some v ∧ w = v
  | .ret _, _, _ => False
  | .nop, v, w => w = v

/-- The value `v` is looked for before the action because `w` is looked for after it. -/
def Action.Recalls : Action → Value → Value → Prop
  | .assign target source, w, v =>
    (target = w ∧ source.isLocal = true ∧ v = source) ∨ (target ≠ w ∧ v = w)
  | .identity target _, w, v => target ≠ w ∧ v = w
  | .invoke result _, w, v => result ≠ some w ∧ v = w
  | .ret _, w, v => v = w
  | .nop, w, v => v = w

/-- The operand that the statement assigns; an identity statement assigns its local. -/
def Statement.assigned? (s : Statement) : Option Value :=
  match s.action with
  | .identity target _ => some target
  | .assign target _ => some target
  | .invoke result _ => result
  | _ => none

theorem Statement.assigned?_identity {s : Statement} {target : Value} {formal : Formal}
    (h : s.action = .identity target formal) : s.assigned? = some target := by
  rw [assigned?, h]

theorem Statement.assigned?_invoke {s : Statement} {result : Option Value} {call : Call}
    (h : s.action = .invoke result call) : s.assigned? = result := by
  rw [assigned?, h]

/-- What holds after an action is what held before, or what the action assigns. -/
theorem Statement.eq_or_assigned_of_carries {s : Statement} {v w : Value}
    (h : s.action.Carries v w) : w = v ∨ s.assigned? = some w := by
  unfold assigned?
  cases ha : s.action with
  | assign target source =>
    rw [ha] at h
    rcases h with ⟨-, rfl⟩ | ⟨-, rfl⟩
    · exact .inr rfl
    · exact .inl rfl
  | identity target formal =>
    rw [ha] at h
    exact .inl h.2
  | invoke result call =>
    rw [ha] at h
    exact .inl h.2
  | ret value =>
    rw [ha] at h
    exact h.elim
  | nop =>
    rw [ha] at h
    exact .inl h

/-- What is looked for before an action is what is looked for after it, or the local that the
action reads. -/
theorem Statement.eq_or_right_of_recalls {s : Statement} {v w : Value}
    (h : s.action.Recalls w v) : v = w ∨ (s.right? = some v ∧ v.isLocal = true) := by
  unfold right?
  cases ha : s.action with
  | assign target source =>
    rw [ha] at h
    rcases h with ⟨-, hsource, rfl⟩ | ⟨-, rfl⟩
    · exact .inr ⟨rfl, hsource⟩
    · exact .inl rfl
  | identity target formal =>
    rw [ha] at h
    exact .inl h.2
  | invoke result call =>
    rw [ha] at h
    exact .inl h.2
  | ret value =>
    rw [ha] at h
    exact .inl h
  | nop =>
    rw [ha] at h
    exact .inl h

namespace Flow

/-- The facts one step away in the given direction. -/
def step (p : Program) (depth : Nat) : Direction → Fact → List Fact
  | .forward => forward p depth
  | .backward => backward p depth

variable {p : Program} {depth : Nat} {f g : Fact}

theorem mem_alongSuccs {id : StmtId} {value : Value} {context : CallString} :
    g ∈ alongSuccs p id value context ↔
      g.edge ∈ p.succEdges id ∧ g.value = value ∧ g.context = context := by
  obtain ⟨e, v, c⟩ := g
  simp only [alongSuccs, List.mem_map, Fact.mk.injEq]
  grind

theorem mem_alongPreds {id : StmtId} {value : Value} {context : CallString} :
    g ∈ alongPreds p id value context ↔
      g.edge ∈ p.predEdges id ∧ g.value = value ∧ g.context = context := by
  obtain ⟨e, v, c⟩ := g
  simp only [alongPreds, List.mem_map, Fact.mk.injEq]
  grind

/-- A method returns to the innermost site of its call string, or to any call of it where the
string is empty. -/
theorem mem_returnSites {method : Signature} {context caller : CallString} {site : StmtId} :
    (site, caller) ∈ returnSites p method context ↔
      context = caller.push site ∨
        (context = .empty ∧ caller = .empty ∧ site ∈ p.callersOf method) := by
  unfold returnSites
  cases hpop : context.pop? with
  | none =>
    obtain rfl := CallString.pop?_eq_none_iff.1 hpop
    have hne : CallString.empty ≠ caller.push site := (caller.push_ne_empty site).symm
    simp only [List.mem_map, Prod.mk.injEq, hne, false_or, true_and]
    constructor
    · rintro ⟨a, ha, rfl, rfl⟩
      exact ⟨rfl, ha⟩
    · rintro ⟨rfl, ha⟩
      exact ⟨site, ha, rfl, rfl⟩
  | some top =>
    obtain ⟨last, init⟩ := top
    obtain rfl := CallString.pop?_eq_some_iff.1 hpop
    simp only [List.mem_singleton, Prod.mk.injEq, CallString.push_inj, CallString.push_ne_empty,
      false_and, or_false]
    constructor
    · rintro ⟨rfl, rfl⟩
      exact ⟨rfl, rfl⟩
    · rintro ⟨rfl, rfl⟩
      exact ⟨rfl, rfl⟩

/-- One forward step from a fact, by the statement that the fact's edge leads to. -/
inductive ForwardStep (p : Program) (depth : Nat) (f : Fact) : Fact → Prop
  | within {s : Statement} {e : Edge} {w : Value} (at_target : p.statement? f.edge.target = some s)
      (carries : s.action.Carries f.value w) (edge : e ∈ p.succEdges f.edge.target) :
      ForwardStep p depth f ⟨e, w, f.context⟩
  | enter {s t : Statement} {result : Option Value} {call : Call} {callee : Method}
      {formal formal' : Formal} {id : StmtId} {e : Edge} {w : Value}
      (at_target : p.statement? f.edge.target = some s) (action : s.action = .invoke result call)
      (method : p.method? call.target = some callee) (identity : (formal, id) ∈ callee.identities)
      (actual : call.actual? formal = some f.value) (at_identity : p.statement? id = some t)
      (binds : t.action = .identity w formal') (edge : e ∈ p.succEdges id) :
      ForwardStep p depth f ⟨e, w, f.context.pushBounded f.edge.target depth⟩
  | leave {s t : Statement} {site : StmtId} {caller : CallString} {e : Edge} {w : Value}
      (at_target : p.statement? f.edge.target = some s) (action : s.action = .ret (some f.value))
      (returns : (site, caller) ∈ returnSites p s.method f.context)
      (at_site : p.statement? site = some t) (left : t.left? = some w)
      (edge : e ∈ p.succEdges site) : ForwardStep p depth f ⟨e, w, caller⟩

/-- One backward step from a fact, by the statement that the fact's edge starts at. -/
inductive BackwardStep (p : Program) (depth : Nat) (f : Fact) : Fact → Prop
  | within {s : Statement} {e : Edge} {v : Value} (at_start : p.statement? f.edge.start = some s)
      (recalls : s.action.Recalls f.value v) (edge : e ∈ p.predEdges f.edge.start) :
      BackwardStep p depth f ⟨e, v, f.context⟩
  | enter {s t : Statement} {call : Call} {callee : Method} {id : StmtId} {e : Edge} {v : Value}
      (at_start : p.statement? f.edge.start = some s)
      (action : s.action = .invoke (some f.value) call)
      (method : p.method? call.target = some callee) (returns : id ∈ callee.returns)
      (at_return : p.statement? id = some t) (returned : t.returned? = some v)
      (isLocal : v.isLocal = true) (edge : e ∈ p.predEdges id) :
      BackwardStep p depth f ⟨e, v, f.context.pushBounded f.edge.start depth⟩
  | leave {s t : Statement} {formal : Formal} {site : StmtId} {caller : CallString} {call : Call}
      {e : Edge} {v : Value} (at_start : p.statement? f.edge.start = some s)
      (action : s.action = .identity f.value formal)
      (returns : (site, caller) ∈ returnSites p s.method f.context)
      (at_site : p.statement? site = some t) (calls : t.call? = some call)
      (actual : call.actual? formal = some v) (isLocal : v.isLocal = true)
      (edge : e ∈ p.predEdges site) : BackwardStep p depth f ⟨e, v, caller⟩

theorem mem_intoCallee {call : Call} {value : Value} {inner : CallString} :
    g ∈ intoCallee p call value inner ↔
      ∃ callee formal id t formal', p.method? call.target = some callee ∧
        (formal, id) ∈ callee.identities ∧ call.actual? formal = some value ∧
        p.statement? id = some t ∧ t.action = .identity g.value formal' ∧
        g.edge ∈ p.succEdges id ∧ g.context = inner := by
  unfold intoCallee
  cases hm : p.method? call.target with
  | none => simp
  | some callee =>
    simp only [List.mem_flatMap, Option.some.injEq]
    constructor
    · rintro ⟨⟨formal, id⟩, hid, hg⟩
      split at hg
      · next hactual =>
        split at hg
        · next target formal' ht =>
          obtain ⟨t, hs, hta⟩ := Option.map_eq_some_iff.1 ht
          obtain ⟨he, rfl, hc⟩ := mem_alongSuccs.1 hg
          exact ⟨callee, formal, id, t, formal', rfl, hid, hactual, hs, hta, he, hc⟩
        · cases hg
      · cases hg
    · rintro ⟨_, formal, id, t, formal', rfl, hid, hactual, hs, hta, he, hc⟩
      refine ⟨(formal, id), hid, ?_⟩
      simp only [hactual, if_true, hs, Option.map_some, hta]
      exact mem_alongSuccs.2 ⟨he, rfl, hc⟩

theorem mem_intoCallers {method : Signature} {context : CallString} :
    g ∈ intoCallers p method context ↔
      ∃ site t, (site, g.context) ∈ returnSites p method context ∧
        p.statement? site = some t ∧ t.left? = some g.value ∧ g.edge ∈ p.succEdges site := by
  simp only [intoCallers, List.mem_flatMap]
  constructor
  · rintro ⟨⟨site, caller⟩, hsite, hg⟩
    split at hg
    · next result hresult =>
      obtain ⟨t, ht, hleft⟩ := Option.bind_eq_some_iff.1 hresult
      obtain ⟨he, rfl, rfl⟩ := mem_alongSuccs.1 hg
      exact ⟨site, t, hsite, ht, hleft, he⟩
    · cases hg
  · rintro ⟨site, t, hsite, ht, hleft, he⟩
    refine ⟨(site, g.context), hsite, ?_⟩
    simp only [ht, Option.bind_some, hleft]
    exact mem_alongSuccs.2 ⟨he, rfl, rfl⟩

theorem mem_fromReturns {call : Call} {inner : CallString} :
    g ∈ fromReturns p call inner ↔
      ∃ callee id t, p.method? call.target = some callee ∧ id ∈ callee.returns ∧
        p.statement? id = some t ∧ t.returned? = some g.value ∧ g.value.isLocal = true ∧
        g.edge ∈ p.predEdges id ∧ g.context = inner := by
  unfold fromReturns
  cases hm : p.method? call.target with
  | none => simp
  | some callee =>
    simp only [List.mem_flatMap, Option.some.injEq]
    constructor
    · rintro ⟨id, hid, hg⟩
      split at hg
      · next value hvalue =>
        obtain ⟨t, ht, hret⟩ := Option.bind_eq_some_iff.1 hvalue
        split at hg
        · next hlocal =>
          obtain ⟨he, rfl, hc⟩ := mem_alongPreds.1 hg
          exact ⟨callee, id, t, rfl, hid, ht, hret, hlocal, he, hc⟩
        · cases hg
      · cases hg
    · rintro ⟨_, id, t, rfl, hid, ht, hret, hlocal, he, hc⟩
      refine ⟨id, hid, ?_⟩
      simp only [ht, Option.bind_some, hret, hlocal, if_true]
      exact mem_alongPreds.2 ⟨he, rfl, hc⟩

theorem mem_fromCallers {method : Signature} {formal : Formal} {context : CallString} :
    g ∈ fromCallers p method formal context ↔
      ∃ site t call, (site, g.context) ∈ returnSites p method context ∧
        p.statement? site = some t ∧ t.call? = some call ∧
        call.actual? formal = some g.value ∧ g.value.isLocal = true ∧
        g.edge ∈ p.predEdges site := by
  simp only [fromCallers, List.mem_flatMap]
  constructor
  · rintro ⟨⟨site, caller⟩, hsite, hg⟩
    split at hg
    · next actual hactual =>
      obtain ⟨call, hbound, hpassed⟩ := Option.bind_eq_some_iff.1 hactual
      obtain ⟨t, ht, hcall⟩ := Option.bind_eq_some_iff.1 hbound
      split at hg
      · next hlocal =>
        obtain ⟨he, rfl, rfl⟩ := mem_alongPreds.1 hg
        exact ⟨site, t, call, hsite, ht, hcall, hpassed, hlocal, he⟩
      · cases hg
    · cases hg
  · rintro ⟨site, t, call, hsite, ht, hcall, hactual, hlocal, he⟩
    refine ⟨(site, g.context), hsite, ?_⟩
    simp only [ht, Option.bind_some, hcall, hactual, hlocal, if_true]
    exact mem_alongPreds.2 ⟨he, rfl, rfl⟩

theorem mem_forward_at {s : Statement} (hs : p.statement? f.edge.target = some s) :
    g ∈ forward p depth f ↔
      (s.action.Carries f.value g.value ∧ g.edge ∈ p.succEdges f.edge.target ∧
        g.context = f.context) ∨
      (∃ result call, s.action = .invoke result call ∧
        g ∈ intoCallee p call f.value (f.context.pushBounded f.edge.target depth)) ∨
      (s.action = .ret (some f.value) ∧ g ∈ intoCallers p s.method f.context) := by
  simp only [forward, hs]
  cases ha : s.action with
  | assign target source =>
    simp only [List.mem_append, Action.Carries]
    grind [mem_alongSuccs]
  | identity target formal =>
    simp only [Action.Carries]
    grind [mem_alongSuccs]
  | invoke result call =>
    simp only [List.mem_append, Action.Carries]
    grind [mem_alongSuccs]
  | ret value =>
    simp only [Action.Carries]
    grind
  | nop =>
    simp only [Action.Carries]
    grind [mem_alongSuccs]

theorem mem_forward : g ∈ forward p depth f ↔ ForwardStep p depth f g := by
  constructor
  · intro h
    cases hs : p.statement? f.edge.target with
    | none => simp [forward, hs] at h
    | some s =>
      obtain ⟨e, w, c⟩ := g
      rcases (mem_forward_at hs).1 h with ⟨hv, he, hc⟩ | ⟨result, call, ha, hg⟩ | ⟨ha, hg⟩
      · obtain rfl : c = f.context := hc
        exact .within hs hv he
      · obtain ⟨callee, formal, id, t, formal', hm, hid, hactual, ht, hta, he, hc⟩ :=
          mem_intoCallee.1 hg
        obtain rfl : c = f.context.pushBounded f.edge.target depth := hc
        exact .enter hs ha hm hid hactual ht hta he
      · obtain ⟨site, t, hsite, ht, hleft, he⟩ := mem_intoCallers.1 hg
        exact .leave hs ha hsite ht hleft he
  · intro h
    cases h with
    | within hs hv he => exact (mem_forward_at hs).2 (.inl ⟨hv, he, rfl⟩)
    | enter hs ha hm hid hactual ht hta he =>
      exact (mem_forward_at hs).2 (.inr (.inl ⟨_, _, ha,
        mem_intoCallee.2 ⟨_, _, _, _, _, hm, hid, hactual, ht, hta, he, rfl⟩⟩))
    | leave hs ha hsite ht hleft he =>
      exact (mem_forward_at hs).2 (.inr (.inr ⟨ha,
        mem_intoCallers.2 ⟨_, _, hsite, ht, hleft, he⟩⟩))

theorem mem_backward_at {s : Statement} (hs : p.statement? f.edge.start = some s) :
    g ∈ backward p depth f ↔
      (s.action.Recalls f.value g.value ∧ g.edge ∈ p.predEdges f.edge.start ∧
        g.context = f.context) ∨
      (∃ call, s.action = .invoke (some f.value) call ∧
        g ∈ fromReturns p call (f.context.pushBounded f.edge.start depth)) ∨
      (∃ formal, s.action = .identity f.value formal ∧
        g ∈ fromCallers p s.method formal f.context) := by
  simp only [backward, hs]
  cases ha : s.action with
  | assign target source =>
    simp only [Action.Recalls, Value.isAllocation]
    grind [mem_alongPreds]
  | identity target formal =>
    simp only [Action.Recalls]
    grind [mem_alongPreds]
  | invoke result call =>
    simp only [Action.Recalls]
    grind [mem_alongPreds]
  | ret value =>
    simp only [Action.Recalls]
    grind [mem_alongPreds]
  | nop =>
    simp only [Action.Recalls]
    grind [mem_alongPreds]

theorem mem_backward : g ∈ backward p depth f ↔ BackwardStep p depth f g := by
  constructor
  · intro h
    cases hs : p.statement? f.edge.start with
    | none => simp [backward, hs] at h
    | some s =>
      obtain ⟨e, v, c⟩ := g
      rcases (mem_backward_at hs).1 h with ⟨hv, he, hc⟩ | ⟨call, ha, hg⟩ | ⟨formal, ha, hg⟩
      · obtain rfl : c = f.context := hc
        exact .within hs hv he
      · obtain ⟨callee, id, t, hm, hid, ht, hret, hlocal, he, hc⟩ := mem_fromReturns.1 hg
        obtain rfl : c = f.context.pushBounded f.edge.start depth := hc
        exact .enter hs ha hm hid ht hret hlocal he
      · obtain ⟨site, t, call, hsite, ht, hcall, hactual, hlocal, he⟩ := mem_fromCallers.1 hg
        exact .leave hs ha hsite ht hcall hactual hlocal he
  · intro h
    cases h with
    | within hs hv he => exact (mem_backward_at hs).2 (.inl ⟨hv, he, rfl⟩)
    | enter hs ha hm hid ht hret hlocal he =>
      exact (mem_backward_at hs).2 (.inr (.inl ⟨_, ha,
        mem_fromReturns.2 ⟨_, _, _, hm, hid, ht, hret, hlocal, he, rfl⟩⟩))
    | leave hs ha hsite ht hcall hactual hlocal he =>
      exact (mem_backward_at hs).2 (.inr (.inr ⟨_, ha,
        mem_fromCallers.2 ⟨_, _, _, hsite, ht, hcall, hactual, hlocal, he⟩⟩))

theorem allocation?_eq_some {p : Program} {f : Fact} {site : ForwardQuery} :
    allocation? p f = some site ↔ ∃ s source, p.statement? f.edge.start = some s ∧
      s.action = .assign f.value source ∧ source.isAllocation = true ∧
      site = ⟨f.edge, ⟨f.value, f.edge.start, source⟩⟩ := by
  unfold allocation?
  cases hs : p.statement? f.edge.start with
  | none => simp
  | some s =>
    simp only [Option.map_some, Option.some.injEq]
    constructor
    · intro h
      split at h
      · next target source ha =>
        split at h
        · next hcond =>
          obtain ⟨rfl, hsource⟩ := hcond
          exact ⟨s, source, rfl, Option.some.inj ha, hsource, (Option.some.inj h).symm⟩
        · cases h
      · cases h
    · rintro ⟨_, source, rfl, ha, hsource, rfl⟩
      simp [ha, hsource]

end Flow

end GuidedDataflow
