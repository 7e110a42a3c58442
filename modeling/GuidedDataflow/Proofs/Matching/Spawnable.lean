import GuidedDataflow.Guide.Run
import GuidedDataflow.Proofs.Matching.Exact

/-!
Which queries matching can spawn. Rule groups and constructor rules alike ask about operands of
calls, backward on an edge into the call or forward on an edge out of it, and name a cell of the
matched table as the trigger: one whose edge leaves the call where a rule group matches, and
one whose edge enters it where a constructor rule does. These queries are finitely many and lie
on edges of the program.
-/

namespace GuidedDataflow

variable {p : Program}

/-- The values that a call statement mentions. -/
def operands (result : Option Value) (call : Call) : List Value :=
  call.receiver.toList ++ result.toList ++ call.args

/-- The queries that can be asked at a statement: at a call, about each of its operands. -/
inductive Statement.Asks (p : Program) (s : Statement) : Query → Prop
  | backward {result : Option Value} {call : Call} {v : Value} {e : Edge}
      (action : s.action = .invoke result call) (operand : v ∈ operands result call)
      (edge : e ∈ p.predEdges s.id) : Asks p s (.backward ⟨e, v⟩)
  | forward {result : Option Value} {call : Call} {v : Value} {e : Edge}
      (action : s.action = .invoke result call) (operand : v ∈ operands result call)
      (edge : e ∈ p.succEdges s.id) : Asks p s (.forward ⟨e, .self v s.id⟩)

namespace Statement

theorem mem_values_of_operands {s : Statement} {result : Option Value} {call : Call}
    (ha : s.action = .invoke result call) {v : Value} (h : v ∈ operands result call) :
    v ∈ s.values := by
  simp only [operands, List.mem_append] at h
  simp only [values, ha, List.mem_append]
  exact h.imp_left Or.symm

/-- What a call supplies is among its operands. -/
theorem Supplies.mem_operands {s : Statement} {operand : Operand} {v : Value}
    (h : s.Supplies operand v) :
    ∃ result call, s.action = .invoke result call ∧ v ∈ operands result call := by
  unfold operands
  cases h with
  | receiver action receiver => exact ⟨_, _, action, by simp [receiver]⟩
  | result action => exact ⟨_, _, action, by simp⟩
  | argument action argument =>
    exact ⟨_, _, action, List.mem_append_right _ (List.mem_of_getElem? argument)⟩

theorem asks_of_follows {s : Statement} {result : Option Value} {call : Call}
    (ha : s.action = .invoke result call) {v : Value} (hv : v ∈ operands result call)
    {d : Direction} {q : Query} (h : Query.Follows p s.id v d q) : s.Asks p q := by
  cases h with
  | backward hpred => exact .backward ha hv (List.mem_map_of_mem hpred)
  | forward hsucc => exact .forward ha hv (List.mem_map_of_mem hsucc)

namespace Asks

variable {s : Statement} {q : Query} (h : s.Asks p q)
include h

theorem mem_spawnable (hs : s ∈ p.statements.toList) : q ∈ Setup.spawnable p := by
  refine List.mem_flatMap.2 ⟨s, hs, ?_⟩
  cases h with
  | @backward result call v e ha hv he =>
    rw [ha]
    exact List.mem_flatMap.2 ⟨v, hv, List.mem_append_left _ (List.mem_map_of_mem he)⟩
  | @forward result call v e ha hv he =>
    rw [ha]
    exact List.mem_flatMap.2 ⟨v, hv, List.mem_append_right _ (List.mem_map_of_mem he)⟩

theorem var_mem_values : q.var ∈ s.values := by
  cases h with
  | backward ha hv he => exact mem_values_of_operands ha hv
  | forward ha hv he => exact mem_values_of_operands ha hv

omit h in
/-- A forward query that is asked at a statement leaves it, which is a call and no assignment. -/
theorem not_assign (hp : p.WellFormed) {id : StmtId} (hs : p.statement? id = some s)
    {f : ForwardQuery} (h : s.Asks p (.forward f)) {s' : Statement}
    (hs' : p.statement? f.origin = some s') (target source : Value) :
    s'.action ≠ .assign target source := by
  intro hassigns
  obtain rfl := hp.id_eq _ _ hs
  cases h with
  | @forward result call v e action operand edge =>
    have hstart : e.start = s.id := (hp.mem_succEdges_iff.1 edge).2
    have hcall : p.statement? e.start = some s := hstart ▸ hs
    obtain rfl := Option.some.inj (hcall.symm.trans hs')
    rw [action] at hassigns
    cases hassigns

end Asks

end Statement

/-- Spawnable queries lie on edges of the program. -/
theorem Setup.edge_of_mem_spawnable (hp : p.WellFormed) {q : Query} (h : q ∈ spawnable p) :
    q.edge ∈ p.edges := by
  obtain ⟨s, -, hs⟩ := List.mem_flatMap.1 h
  split at hs
  · obtain ⟨v, -, hv⟩ := List.mem_flatMap.1 hs
    rcases List.mem_append.1 hv with hv | hv
    · obtain ⟨e, he, rfl⟩ := List.mem_map.1 hv
      exact (hp.mem_predEdges_iff.1 he).1
    · obtain ⟨e, he, rfl⟩ := List.mem_map.1 hv
      exact (hp.mem_succEdges_iff.1 he).1
  · cases hs

/-- A rule group asks at the statement that the trigger's edge leaves. -/
theorem Specification.asks_of_mem_spawn {spec : Specification} {d : Direction} {t : Table}
    {x : Spawn} (h : x ∈ spec.spawn p d t) : x.trigger ∈ t ∧
      ∃ s, p.statement? x.trigger.edge.start = some s ∧ s.Asks p x.query := by
  obtain ⟨htrigger, s, hs, g, hg, hq⟩ := mem_spawn.1 h
  obtain ⟨call, hcall, -⟩ := mem_matching.1 hg
  obtain ⟨go, -, v, hv, hfollows⟩ :=
    (RuleGroup.mem_synthesize (Option.isSome_of_eq_some hcall)).1 hq
  obtain ⟨result, call, ha, hmem⟩ := hv.mem_operands
  exact ⟨htrigger, s, hs, Statement.asks_of_follows ha hmem hfollows⟩

/-- A constructor rule asks at the statement that the trigger's edge enters. -/
theorem ConstructorRule.asks_of_mem_spawn (hp : p.WellFormed) {rule : ConstructorRule} {t : Table}
    {x : Spawn} (h : x ∈ rule.spawn p t) : x.trigger ∈ t ∧
      ∃ s, p.statement? x.trigger.edge.target = some s ∧ s.Asks p x.query := by
  obtain ⟨htrigger, hq⟩ := mem_spawn.1 h
  obtain ⟨s, call, receiver, hs, hcall, hreceiver, -, hfollows⟩ := mem_queriesAt.1 hq
  obtain ⟨result, ha⟩ := Statement.call?_eq_some.1 hcall
  rw [← hp.id_eq _ _ hs] at hfollows
  exact ⟨htrigger, s, hs, Statement.asks_of_follows ha (by simp [operands, hreceiver]) hfollows⟩

namespace Setup

variable {u : Setup} (hp : u.program.WellFormed) {m : Matched} {x : SpawnSource × Spawn}
include hp

/-- Whatever is spawned is asked at an end of the trigger's edge. -/
theorem asks_of_mem_spawns (h : x ∈ u.spawns m) : x.2.trigger ∈ m.table ∧
    ∃ id s, (id = x.2.trigger.edge.start ∨ id = x.2.trigger.edge.target) ∧
      u.program.statement? id = some s ∧ s.Asks u.program x.2.query := by
  rcases List.mem_append.1 h with h | h
  · obtain ⟨spawn, hspawn, rfl⟩ := List.mem_map.1 h
    obtain ⟨htrigger, s, hs, hasks⟩ := Specification.asks_of_mem_spawn hspawn
    exact ⟨htrigger, _, s, .inl rfl, hs, hasks⟩
  · cases hd : m.direction with
    | forward =>
      simp only [hd] at h
      obtain ⟨rule, -, h⟩ := List.mem_flatMap.1 h
      obtain ⟨spawn, hspawn, rfl⟩ := List.mem_map.1 h
      obtain ⟨htrigger, s, hs, hasks⟩ := ConstructorRule.asks_of_mem_spawn hp hspawn
      exact ⟨htrigger, _, s, .inr rfl, hs, hasks⟩
    | backward =>
      simp only [hd] at h
      cases h

theorem of_mem_spawns (h : x ∈ u.spawns m) :
    x.2.query ∈ spawnable u.program ∧ x.2.trigger ∈ m.table := by
  obtain ⟨htrigger, _, s, -, hs, hasks⟩ := asks_of_mem_spawns hp h
  exact ⟨hasks.mem_spawnable (Program.mem_of_statement? hs), htrigger⟩

end Setup

end GuidedDataflow
