import Mathlib.Data.List.Nodup
import GuidedDataflow.Matching.ConstructorRule
import GuidedDataflow.Proofs.Program.Edges
import GuidedDataflow.Proofs.Rule.Grouping

/-!
What a table spawns, exactly. A rule group spawns for a cell if the statement that its edge
leaves calls the group's signature with the cell's value as an operand that the group watches.
A constructor rule spawns if the statement that the edge enters is an instance call that the rule
names, with the value among the arguments. Both ask about operands that the call has, on edges at
that call; an operand that it lacks asks nothing.
-/

namespace GuidedDataflow

variable {p : Program}

/-- The statement is a call that has the value as the operand. -/
inductive Statement.Supplies (s : Statement) : Operand → Value → Prop
  | receiver {result : Option Value} {call : Call} {v : Value}
      (action : s.action = .invoke result call) (receiver : call.receiver = some v) :
      Supplies s .base v
  | result {call : Call} {v : Value} (action : s.action = .invoke (some v) call) :
      Supplies s .result v
  | argument {result : Option Value} {call : Call} {i : Nat} {v : Value}
      (action : s.action = .invoke result call) (argument : call.args[i]? = some v) :
      Supplies s (.positional i) v

/-- The query follows the value from the statement on: backward from an edge into it, or forward
from an edge out of it, as if the value were created there. -/
inductive Query.Follows (p : Program) (id : StmtId) (v : Value) : Direction → Query → Prop
  | backward {pred : StmtId} (edge : pred ∈ p.predsOf id) :
      Follows p id v .backward (.backward ⟨⟨pred, id⟩, v⟩)
  | forward {succ : StmtId} (edge : succ ∈ p.succsOf id) :
      Follows p id v .forward (.forward ⟨⟨id, succ⟩, .self v id⟩)

namespace Query

variable {id : StmtId} {v : Value} {q : Query}

theorem mem_map_predEdges :
    q ∈ (p.predEdges id).map (fun e => .backward ⟨e, v⟩) ↔ Follows p id v .backward q := by
  constructor
  · intro h
    obtain ⟨e, he, rfl⟩ := List.mem_map.1 h
    obtain ⟨pred, hpred, rfl⟩ := List.mem_map.1 he
    exact .backward hpred
  · rintro ⟨hpred⟩
    exact List.mem_map.2 ⟨_, List.mem_map.2 ⟨_, hpred, rfl⟩, rfl⟩

theorem mem_map_succEdges :
    q ∈ (p.succEdges id).map (fun e => .forward ⟨e, .self v id⟩) ↔ Follows p id v .forward q := by
  constructor
  · intro h
    obtain ⟨e, he, rfl⟩ := List.mem_map.1 h
    obtain ⟨succ, hsucc, rfl⟩ := List.mem_map.1 he
    exact .forward hsucc
  · intro h
    cases h with
    | forward hsucc => exact List.mem_map.2 ⟨_, List.mem_map.2 ⟨_, hsucc, rfl⟩, rfl⟩

end Query

namespace Statement

variable {s : Statement}

theorem call?_eq_some {call : Call} :
    s.call? = some call ↔ ∃ result, s.action = .invoke result call := by
  unfold call?
  constructor
  · intro h
    split at h
    · next result call' ha =>
      cases h
      exact ⟨result, ha⟩
    · cases h
  · rintro ⟨result, ha⟩
    rw [ha]

/-- A call supplies the operands that it has. -/
theorem supplies_iff {operand : Operand} {v : Value} :
    s.Supplies operand v ↔ s.isCall = true ∧ s.operand? operand = some v := by
  constructor
  · intro h
    cases h with
    | receiver action receiver => simp [isCall, operand?, call?, action, receiver]
    | result action => simp [isCall, operand?, call?, left?, action]
    | argument action argument => simp [isCall, operand?, call?, Call.arg?, action, argument]
  · rintro ⟨hcall, hv⟩
    obtain ⟨call, hcall⟩ := Option.isSome_iff_exists.1 hcall
    obtain ⟨result, ha⟩ := call?_eq_some.1 hcall
    cases operand with
    | base =>
      rw [operand?, hcall] at hv
      exact .receiver ha hv
    | result =>
      rw [operand?, left?, ha] at hv
      obtain rfl : result = some v := hv
      exact .result ha
    | positional i =>
      rw [operand?, hcall] at hv
      exact .argument ha hv

theorem hasOperand_iff {operand : Operand} {v : Value} :
    s.hasOperand v operand = true ↔ s.Supplies operand v := by
  rw [supplies_iff, hasOperand, Bool.and_eq_true, decide_eq_true_eq]

end Statement

namespace RuleGroup

theorem mem_triggersIn {g : RuleGroup} {d : Direction} {sel : Selector} :
    sel ∈ g.triggersIn d ↔ sel ∈ g.on ∧ sel.direction = d := by
  rw [triggersIn, List.mem_filter, decide_eq_true_eq, OrderedSet.mem_def]

theorem mem_queriesOf {s : Statement} {sel : Selector} {q : Query} : q ∈ queriesOf p s sel ↔
    ∃ v, s.operand? sel.operand = some v ∧ Query.Follows p s.id v sel.direction q := by
  unfold queriesOf
  cases hv : s.operand? sel.operand with
  | none => simp
  | some v =>
    simp only [Option.some.injEq, exists_eq_left']
    cases sel.direction with
    | backward => exact Query.mem_map_predEdges
    | forward => exact Query.mem_map_succEdges

/-- A group asks for each of its go-selectors about the operand that the call supplies. -/
theorem mem_synthesize {g : RuleGroup} {s : Statement} (hcall : s.isCall = true) {q : Query} :
    q ∈ g.synthesize p s ↔
      ∃ go ∈ g.go, ∃ v, s.Supplies go.operand v ∧ Query.Follows p s.id v go.direction q := by
  rw [synthesize, OrderedSet.mem_ofList, List.mem_flatMap]
  simp only [mem_queriesOf, Statement.supplies_iff, hcall, true_and, OrderedSet.mem_def]

end RuleGroup

namespace Specification

variable {spec : Specification}

theorem mem_matching {s : Statement} {d : Direction} {v : Value} {g : RuleGroup} :
    g ∈ spec.matching s d v ↔ ∃ call, s.call? = some call ∧ g ∈ spec.groupsFor call.target ∧
      ∃ on ∈ g.on, on.direction = d ∧ s.Supplies on.operand v := by
  unfold matching
  cases s.call? with
  | none => simp
  | some call =>
    simp only [List.mem_filter, List.any_eq_true, RuleGroup.mem_triggersIn,
      Statement.hasOperand_iff, and_assoc, Option.some.injEq, exists_eq_left']

theorem mem_spawn {d : Direction} {t : Table} {x : Spawn} : x ∈ spec.spawn p d t ↔
    x.trigger ∈ t ∧ ∃ s, p.statement? x.trigger.edge.start = some s ∧
      ∃ g ∈ spec.matching s d x.trigger.value, x.query ∈ g.synthesize p s := by
  constructor
  · intro h
    obtain ⟨c, hc, hx⟩ := List.mem_flatMap.1 h
    unfold spawnAt at hx
    cases hs : p.statement? c.edge.start with
    | none => simp [hs] at hx
    | some s =>
      simp only [hs] at hx
      obtain ⟨g, hg, hx⟩ := List.mem_flatMap.1 hx
      obtain ⟨q, hq, rfl⟩ := List.mem_map.1 hx
      exact ⟨hc, s, hs, g, hg, hq⟩
  · rintro ⟨hc, s, hs, g, hg, hq⟩
    refine List.mem_flatMap.2 ⟨x.trigger, hc, ?_⟩
    simp only [spawnAt, hs]
    exact List.mem_flatMap.2 ⟨g, hg, List.mem_map.2 ⟨x.query, hq, rfl⟩⟩

/-- A specification spawns for a cell exactly what the groups of the call that its edge leaves ask
for: those that watch an operand on which the cell's value stands, about each operand on a
go-selector that the call has, on each edge into it or out of it. The groups of a call are those
added for its signature. -/
theorem spawn_iff_selected {parts : List (Signature × List Instruction)}
    (hp : Program.build parts = .ok p) (spec : Specification) (d : Direction) (t : Table) :
    (∀ q c, ⟨q, c⟩ ∈ spec.spawn p d t ↔ c ∈ t ∧ ∃ s call g,
        p.statement? c.edge.start = some s ∧ s.call? = some call ∧
        g ∈ spec.groupsFor call.target ∧
        (∃ on ∈ g.on, on.direction = d ∧ s.Supplies on.operand c.value) ∧
        ∃ go ∈ g.go, ∃ v, s.Supplies go.operand v ∧
          Query.Follows p c.edge.start v go.direction q) ∧
      ∀ groups, spec = .ofGroups groups → ∀ signature g,
        g ∈ spec.groupsFor signature ↔ g ∈ groups ∧ g.signature = signature := by
  have hwf := Program.wellFormed_of_build hp
  refine ⟨fun q c => ?_, fun groups hgroups signature g => ?_⟩
  · rw [mem_spawn]
    refine and_congr_right fun _ => ⟨?_, ?_⟩
    · rintro ⟨s, hs, g, hg, hq⟩
      obtain ⟨call, hcall, hmem, hon⟩ := mem_matching.1 hg
      rw [RuleGroup.mem_synthesize (Option.isSome_of_eq_some hcall), hwf.id_eq _ _ hs] at hq
      exact ⟨s, call, g, hs, hcall, hmem, hon, hq⟩
    · rintro ⟨s, call, g, hs, hcall, hmem, hon, hgo⟩
      refine ⟨s, hs, g, mem_matching.2 ⟨call, hcall, hmem, hon⟩, ?_⟩
      rw [RuleGroup.mem_synthesize (Option.isSome_of_eq_some hcall), hwf.id_eq _ _ hs]
      exact hgo
  · rw [hgroups]
    exact mem_groupsFor_ofGroups

/-- A constructor call whose two arguments are the same local. -/
def joinParts : List (Signature × List Instruction) :=
  let main : Signature := ⟨"<M: void main()>"⟩
  [(main, [.assign (.localVar "s" main) (.new "java.lang.String"),
    .invoke none ⟨⟨"<java.lang.String: void <init>(char[],char[])>"⟩,
      some (.localVar "s" main), [.localVar "a" main, .localVar "a" main]⟩,
    .ret none])]

def joinProgram : Program := (Program.build joinParts).toOption.getD .empty

/-- The argument on the edge into the call and on the edge out of it. -/
def joinTable : Table :=
  let argument := Value.localVar "a" ⟨"<M: void main()>"⟩
  .ofCells [⟨⟨⟨0⟩, ⟨1⟩⟩, argument⟩, ⟨⟨⟨1⟩, ⟨2⟩⟩, argument⟩]

/-- The receiver of the call, on the edge out of it. -/
def joinQuery : Query :=
  .forward ⟨⟨⟨1⟩, ⟨2⟩⟩, .self (.localVar "s" ⟨"<M: void main()>"⟩) ⟨1⟩⟩

/-- Of the go-selectors only the receiver is there: the call has no third argument, and its result
is not kept. -/
theorem spawn_iff_selected_join :
    let group := ((((RuleGroup.ofSignature
      ⟨"<java.lang.String: void <init>(char[],char[])>"⟩).addOn ⟨.forward, .positional 1⟩).addGo
      ⟨.forward, .base⟩).addGo ⟨.backward, .positional 2⟩).addGo ⟨.forward, .result⟩
    let c : Cell := ⟨⟨⟨1⟩, ⟨2⟩⟩, .localVar "a" ⟨"<M: void main()>"⟩⟩
    ⟨joinQuery, c⟩ ∈ (ofGroups [group]).spawn joinProgram .forward joinTable ∧
      ∀ x ∈ (ofGroups [group]).spawn joinProgram .forward joinTable, x = ⟨joinQuery, c⟩ := by
  intro group c
  have hp : Program.build joinParts = .ok joinProgram := rfl
  obtain ⟨hspawn, hgroups⟩ := spawn_iff_selected hp (.ofGroups [group]) .forward joinTable
  refine ⟨(hspawn joinQuery c).2 ⟨by decide, _, _, group, rfl, rfl, ?_, ?_, ?_⟩, by decide +kernel⟩
  · exact (hgroups [group] rfl _ group).2 ⟨List.mem_singleton_self group, rfl⟩
  · exact ⟨⟨.forward, .positional 1⟩, by decide, rfl, .argument rfl rfl⟩
  · exact ⟨⟨.forward, .base⟩, by decide, _, .receiver rfl rfl, .forward (by decide)⟩

end Specification

namespace ConstructorRule

variable {r : ConstructorRule}

theorem applies_iff {call : Call} {v : Value} : r.applies call v = true ↔
    call.target.declaringClass? = some r.declaringClass ∧
      call.target.methodName? = some r.methodName ∧ v ∈ call.args := by
  simp only [applies, Bool.and_eq_true, decide_eq_true_eq, List.contains_iff_mem, and_assoc]

theorem mem_queriesAt {c : Cell} {q : Query} : q ∈ r.queriesAt p c ↔
    ∃ s call receiver, p.statement? c.edge.target = some s ∧ s.call? = some call ∧
      call.receiver = some receiver ∧ r.applies call c.value = true ∧
      Query.Follows p c.edge.target receiver .forward q := by
  constructor
  · intro h
    unfold queriesAt at h
    cases hcall : (p.statement? c.edge.target).bind Statement.call? with
    | none =>
      simp only [hcall] at h
      exact (OrderedSet.not_mem_empty q h).elim
    | some call =>
      simp only [hcall] at h
      split at h
      · next happlies =>
        cases hreceiver : call.receiver with
        | none =>
          simp only [hreceiver] at h
          exact (OrderedSet.not_mem_empty q h).elim
        | some receiver =>
          simp only [hreceiver] at h
          obtain ⟨s, hs, hscall⟩ := Option.bind_eq_some_iff.1 hcall
          exact ⟨s, call, receiver, hs, hscall, hreceiver, happlies,
            Query.mem_map_succEdges.1 (OrderedSet.mem_ofList.1 h)⟩
      · exact (OrderedSet.not_mem_empty q h).elim
  · rintro ⟨s, call, receiver, hs, hscall, hreceiver, happlies, hfollows⟩
    simp only [queriesAt, hs, Option.bind_some, hscall, happlies, if_true, hreceiver]
    exact OrderedSet.mem_ofList.2 (Query.mem_map_succEdges.2 hfollows)

theorem mem_spawn {t : Table} {x : Spawn} :
    x ∈ r.spawn p t ↔ x.trigger ∈ t ∧ x.query ∈ r.queriesAt p x.trigger := by
  constructor
  · intro h
    obtain ⟨c, hc, hx⟩ := List.mem_flatMap.1 h
    obtain ⟨q, hq, rfl⟩ := List.mem_map.1 hx
    exact ⟨hc, hq⟩
  · rintro ⟨hc, hq⟩
    exact List.mem_flatMap.2 ⟨x.trigger, hc, List.mem_map.2 ⟨x.query, hq, rfl⟩⟩

theorem nodup_spawn (r : ConstructorRule) (p : Program) (t : Table) : (r.spawn p t).Nodup := by
  refine List.nodup_flatMap.2 ⟨fun c _ => ?_, ?_⟩
  · have hinjective : Function.Injective fun q : Query => (⟨q, c⟩ : Spawn) :=
      fun _ _ h => congrArg Spawn.query h
    exact (OrderedSet.nodup_toList _).map hinjective
  · refine (OrderedSet.nodup_toList t.cells).imp fun {c c'} hne => ?_
    -- what is spawned for different cells differs in the trigger
    rintro x hx hx'
    obtain ⟨_, -, rfl⟩ := List.mem_map.1 hx
    obtain ⟨_, -, heq⟩ := List.mem_map.1 hx'
    exact hne (congrArg Spawn.trigger heq).symm

/-- A constructor rule spawns for a cell exactly what follows the receiver of the call that its
edge enters, if that is an instance call of the class and method named, with the cell's value
among the arguments. It spawns each such query once for the cell, at however many places the
value stands, and none at a statement that the cell's edge leaves for another. -/
theorem spawn_iff_constructs (r : ConstructorRule) (p : Program) (t : Table) :
    (∀ q c, ⟨q, c⟩ ∈ r.spawn p t ↔ c ∈ t ∧ ∃ s call receiver,
        p.statement? c.edge.target = some s ∧ s.call? = some call ∧
        call.receiver = some receiver ∧
        call.target.declaringClass? = some r.declaringClass ∧
        call.target.methodName? = some r.methodName ∧ c.value ∈ call.args ∧
        Query.Follows p c.edge.target receiver .forward q) ∧
      (r.spawn p t).Nodup ∧
      ∀ q c, ⟨q, c⟩ ∈ r.spawn p t → c.edge.start ≠ c.edge.target → q.edge.start ≠ c.edge.start := by
  refine ⟨fun q c => ?_, nodup_spawn r p t, fun q c h hne => ?_⟩
  · simp only [mem_spawn, mem_queriesAt, applies_iff, and_assoc]
  · have hquery : q ∈ r.queriesAt p c := (mem_spawn.1 h).2
    obtain ⟨_, _, receiver, -, -, -, -, hfollows⟩ := mem_queriesAt.1 hquery
    cases hfollows with
    | forward => exact hne.symm

/-- The argument fires the rule once where it enters the call, and not where it leaves it. -/
theorem spawn_iff_constructs_join :
    let c : Cell := ⟨⟨⟨0⟩, ⟨1⟩⟩, .localVar "a" ⟨"<M: void main()>"⟩⟩
    ⟨Specification.joinQuery, c⟩ ∈ standard.spawn Specification.joinProgram
        Specification.joinTable ∧
      standard.spawn Specification.joinProgram Specification.joinTable =
        [⟨Specification.joinQuery, c⟩] := by
  intro c
  have hspawn := (spawn_iff_constructs standard Specification.joinProgram
    Specification.joinTable).1 Specification.joinQuery c
  refine ⟨hspawn.2 ⟨by decide, _, _, _, rfl, rfl, rfl, ?_, ?_, ?_, ?_⟩, by decide +kernel⟩
  · decide +kernel
  · decide +kernel
  · exact List.mem_cons_self
  · exact .forward (by decide)

end ConstructorRule

end GuidedDataflow
