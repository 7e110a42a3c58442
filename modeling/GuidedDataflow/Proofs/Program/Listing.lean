import Mathlib.Data.List.Nodup
import GuidedDataflow.Proofs.Program.Edges

/-!
What the lists of a program hold, and in which order. The numbers of the statements ascend from
zero; the body of a method lists its statements in this order, its identities and returns are
those of its body, and the callers of a method are the calls of it, in the same order. No edge is
listed twice in either direction.
-/

namespace GuidedDataflow

open Std

/-- The formal that an identity statement binds, with the statement's number. -/
def Statement.binding? (s : Statement) : Option (Formal × StmtId) :=
  match s.action with
  | .identity _ formal => some (formal, s.id)
  | _ => none

/-- Whether the statement calls the method. -/
def Statement.invokes (s : Statement) (callee : Signature) : Bool :=
  s.call?.any fun call => decide (call.target = callee)

/-- The lists of the method are those of the statements. -/
structure Method.Lists (method : Method) (statements : List Statement) : Prop where
  body : method.body = statements.map Statement.id
  identities : method.identities = statements.filterMap Statement.binding?
  returns : method.returns = (statements.filter Statement.isReturn).map Statement.id

theorem Method.Lists.append {method : Method} {statements : List Statement}
    (h : method.Lists statements) (id : StmtId) (signature : Signature) (action : Action) :
    (method.append id action).Lists (statements ++ [⟨id, signature, action⟩]) := by
  refine ⟨?_, ?_, ?_⟩
  · simp [Method.append, h.body]
  · cases action <;> simp [Method.append, h.identities, Statement.binding?]
  · cases action <;> simp [Method.append, h.returns, Statement.isReturn, List.filter_cons]

namespace Program

/-- The statements of a method, in the order of their numbers. -/
def statementsOf (p : Program) (signature : Signature) : List Statement :=
  p.statements.toList.filter fun s => decide (s.method = signature)

/-- The calls of a method, in the order of their numbers. -/
def callsOf (p : Program) (callee : Signature) : List Statement :=
  p.statements.toList.filter (·.invokes callee)

/-- The lists of the program are those of its statements, and none lists an edge twice. -/
structure Listed (p : Program) : Prop where
  methods : ∀ signature method, p.method? signature = some method →
    method.Lists (p.statementsOf signature)
  callers : ∀ callee, p.callersOf callee = (p.callsOf callee).map Statement.id
  succs : ∀ id, (p.succsOf id).Nodup
  preds : ∀ id, (p.predsOf id).Nodup

variable {p : Program} {signature : Signature}

theorem statements_append (p : Program) (signature : Signature) (action : Action) :
    (p.append signature action).statements.toList =
      p.statements.toList ++ [⟨p.nextId, signature, action⟩] := by
  simp [append]

theorem statements_link (p : Program) (source target : StmtId) :
    (p.link source target).statements = p.statements := by
  unfold link
  split <;> rfl

theorem statementsOf_append (p : Program) (signature other : Signature) (action : Action) :
    (p.append signature action).statementsOf other =
      if signature = other then p.statementsOf other ++ [⟨p.nextId, signature, action⟩]
      else p.statementsOf other := by
  rw [statementsOf, statements_append, List.filter_append]
  split
  · next h => simp [statementsOf, h]
  · next h => simp [statementsOf, h]

theorem callsOf_append (p : Program) (signature callee : Signature) (action : Action) :
    (p.append signature action).callsOf callee =
      match action with
      | .invoke _ call =>
        if call.target = callee then p.callsOf callee ++ [⟨p.nextId, signature, action⟩]
        else p.callsOf callee
      | _ => p.callsOf callee := by
  rw [callsOf, statements_append, List.filter_append]
  cases action with
  | invoke result call =>
    by_cases h : call.target = callee <;> simp [callsOf, Statement.invokes, Statement.call?, h]
  | _ => simp [callsOf, Statement.invokes, Statement.call?]

theorem WellFormed.statement?_id (hp : p.WellFormed) {s : Statement}
    (hs : s ∈ p.statements.toList) : p.statement? s.id = some s := by
  obtain ⟨i, hi⟩ := List.mem_iff_getElem?.1 hs
  have hstatement : p.statement? ⟨i⟩ = some s := by simpa [statement?] using hi
  rwa [hp.id_eq _ _ hstatement]

/-- The statements ascend by number. -/
theorem WellFormed.ascending (hp : p.WellFormed) :
    p.statements.toList.Pairwise fun s t => s.id.index < t.id.index := by
  have hnumber : ∀ (i : Nat) (s : Statement), p.statements.toList[i]? = some s → s.id.index = i :=
    fun i s hs => congrArg StmtId.index (hp.id_eq ⟨i⟩ s (by simpa [statement?] using hs))
  refine List.pairwise_iff_getElem.2 fun i j hi hj hij => ?_
  rwa [hnumber i _ (List.getElem?_eq_getElem hi), hnumber j _ (List.getElem?_eq_getElem hj)]

/-- A method that is not known has no statements. -/
theorem statementsOf_eq_nil (hp : p.WellFormed) (h : p.method? signature = none) :
    p.statementsOf signature = [] := by
  refine List.filter_eq_nil_iff.2 fun s hs hmethod => ?_
  obtain ⟨method, hm⟩ := hp.declared _ _ (hp.statement?_id hs)
  rw [of_decide_eq_true hmethod, h] at hm
  cases hm

namespace Listed

theorem empty : Program.empty.Listed where
  methods signature method h := by simp [Program.empty, method?] at h
  callers callee := by simp [Program.empty, callersOf, callsOf]
  succs id := by simp [Program.empty, succsOf]
  preds id := by simp [Program.empty, predsOf]

theorem declare (h : p.Listed) (hp : p.WellFormed) (signature : Signature) :
    (p.declare signature).Listed where
  methods other method hm := by
    have hsame : (p.declare signature).statementsOf other = p.statementsOf other := rfl
    rw [hsame]
    rw [method?_declare] at hm
    split at hm
    · next hnew =>
      obtain ⟨rfl, hnone⟩ := hnew
      obtain rfl := Option.some.inj hm
      rw [statementsOf_eq_nil hp hnone]
      exact ⟨rfl, rfl, rfl⟩
    · exact h.methods other method hm
  callers := h.callers
  succs := h.succs
  preds := h.preds

theorem append (h : p.Listed) (signature : Signature) (action : Action) :
    (p.append signature action).Listed where
  methods other method hm := by
    rw [statementsOf_append]
    rw [method?_append] at hm
    split at hm
    · next heq =>
      subst heq
      obtain ⟨old, hold, rfl⟩ := Option.map_eq_some_iff.1 hm
      rw [if_pos rfl]
      exact (h.methods signature old hold).append p.nextId signature action
    · next hne =>
      rw [if_neg hne]
      exact h.methods other method hm
  callers callee := by
    rw [callersOf_append, callsOf_append]
    cases action with
    | invoke result call =>
      by_cases heq : call.target = callee <;> simp [heq, h.callers]
    | _ => exact h.callers callee
  succs id := by simpa using h.succs id
  preds id := by simpa using h.preds id

theorem link (h : p.Listed) (hp : p.WellFormed) {source target : StmtId}
    (hs : source.index < p.size) (ht : target.index < p.size) : (p.link source target).Listed where
  methods signature method hm := by
    have hsame : (p.link source target).statementsOf signature = p.statementsOf signature := by
      rw [statementsOf, statements_link, statementsOf]
    rw [hsame]
    exact h.methods signature method (by simpa using hm)
  callers callee := by
    rw [callersOf_link, callsOf, statements_link]
    exact h.callers callee
  succs id := by
    rw [succsOf_link (by rwa [hp.size_succs])]
    split
    · next hnew =>
      rw [← List.concat_eq_append]
      exact (h.succs id).concat (hnew.1 ▸ hnew.2)
    · exact h.succs id
  preds id := by
    rw [predsOf_link (by rwa [hp.size_preds])]
    split
    · next hnew =>
      rw [hp.mem_succsOf] at hnew
      rw [← List.concat_eq_append]
      exact (h.preds id).concat (hnew.1 ▸ hnew.2)
    · exact h.preds id

end Listed

theorem Built.listed (h : p.Built) : p.Listed := by
  induction h with
  | empty => exact .empty
  | declare hp signature ih => exact ih.declare hp.wellFormed signature
  | append _ _ action ih => exact ih.append _ action
  | link hp source_lt target_lt ih => exact ih.link hp.wellFormed source_lt target_lt

/-- What look-ups in a program tell agrees. -/
structure LaidOut (p : Program) : Prop where
  id_eq : ∀ id s, p.statement? id = some s → s.id = id
  mem_succsOf : ∀ a b, b ∈ p.succsOf a ↔ a ∈ p.predsOf b
  nodup : ∀ id, (p.succsOf id).Nodup ∧ (p.predsOf id).Nodup
  inside : ∀ a b, b ∈ p.succsOf a →
    (∃ s, p.statement? a = some s) ∧ ∃ s, p.statement? b = some s
  /-- A statement stands in the body of its own method and of no other. -/
  mem_body : ∀ id s, p.statement? id = some s → ∀ signature,
    (∃ method, p.method? signature = some method ∧ id ∈ method.body) ↔ signature = s.method
  body : ∀ signature method, p.method? signature = some method →
    method.body.Pairwise (fun a b => a.index < b.index) ∧
      ∀ id ∈ method.body, ∃ s, p.statement? id = some s
  identities : ∀ signature method, p.method? signature = some method → method.identities =
    method.body.filterMap fun id => (p.statement? id).bind Statement.binding?
  returns : ∀ signature method, p.method? signature = some method → method.returns =
    method.body.filter fun id => (p.statement? id).any Statement.isReturn
  callers : ∀ callee, (p.callersOf callee).Pairwise (fun a b => a.index < b.index) ∧
    ∀ id, id ∈ p.callersOf callee ↔ ∃ s, p.statement? id = some s ∧ s.invokes callee = true

namespace Listed

variable (h : p.Listed) (hp : p.WellFormed) {method : Method}
include h hp

theorem identities_eq (hm : p.method? signature = some method) : method.identities =
    method.body.filterMap fun id => (p.statement? id).bind Statement.binding? := by
  obtain ⟨hbody, hidentities, -⟩ := h.methods signature method hm
  rw [hidentities, hbody, List.filterMap_map]
  refine List.filterMap_congr fun s hs => ?_
  rw [Function.comp_apply, hp.statement?_id (List.mem_of_mem_filter hs), Option.bind_some]

theorem returns_eq (hm : p.method? signature = some method) : method.returns =
    method.body.filter fun id => (p.statement? id).any Statement.isReturn := by
  obtain ⟨hbody, -, hreturns⟩ := h.methods signature method hm
  rw [hreturns, hbody, List.filter_map]
  refine congrArg _ (List.filter_congr fun s hs => ?_)
  rw [Function.comp_apply, hp.statement?_id (List.mem_of_mem_filter hs), Option.any_some]

theorem mem_callersOf {callee : Signature} {id : StmtId} : id ∈ p.callersOf callee ↔
    ∃ s, p.statement? id = some s ∧ s.invokes callee = true := by
  rw [h.callers, callsOf, List.mem_map]
  constructor
  · rintro ⟨s, hs, rfl⟩
    obtain ⟨hmem, hinvokes⟩ := List.mem_filter.1 hs
    exact ⟨s, hp.statement?_id hmem, hinvokes⟩
  · rintro ⟨s, hs, hinvokes⟩
    exact ⟨s, List.mem_filter.2 ⟨mem_of_statement? hs, hinvokes⟩, hp.id_eq id s hs⟩

theorem laidOut : p.LaidOut where
  id_eq := hp.id_eq
  mem_succsOf := hp.mem_succsOf
  nodup id := ⟨h.succs id, h.preds id⟩
  inside a b hb :=
    ⟨exists_statement_of_lt (hp.inside a b hb).1, exists_statement_of_lt (hp.inside a b hb).2⟩
  mem_body id s hs signature := by
    constructor
    · rintro ⟨method, hm, hmem⟩
      obtain ⟨t, ht, rfl⟩ := ((hp.indexes signature method hm).body id).1 hmem
      exact congrArg Statement.method (Option.some.inj (ht.symm.trans hs))
    · rintro rfl
      obtain ⟨method, hm⟩ := hp.declared id s hs
      exact ⟨method, hm, ((hp.indexes s.method method hm).body id).2 ⟨s, hs, rfl⟩⟩
  body signature method hm := by
    refine ⟨?_, fun id hid => ?_⟩
    · rw [(h.methods signature method hm).body, List.pairwise_map]
      exact hp.ascending.filter _
    · obtain ⟨s, hs, -⟩ := ((hp.indexes signature method hm).body id).1 hid
      exact ⟨s, hs⟩
  identities signature method hm := h.identities_eq hp hm
  returns signature method hm := h.returns_eq hp hm
  callers callee := by
    refine ⟨?_, fun id => h.mem_callersOf hp⟩
    rw [h.callers, List.pairwise_map]
    exact hp.ascending.filter _

end Listed

end Program

end GuidedDataflow
