import Mathlib.Data.Finset.Card
import GuidedDataflow.Proofs.Guide.Agenda

/-!
An agenda as a queue that drops repetitions. However pushes and pops alternate, the demands taken
off so far and those that wait are the pushed ones whose key no earlier one had, in the order of
their pushes; a pop moves a demand from one part to the other and has no say in what is accepted.
A demand that is new by its query is also new by its query and parent.
-/

namespace GuidedDataflow

/-- Those of the demands, in order, for which `p` holds of the ones before them and themselves. -/
def selectAfter (p : List Demand → Demand → Bool) (ds : List Demand) : List Demand :=
  (ds.zipIdx.filter fun (d, i) => p (ds.take i) d).map Prod.fst

theorem selectAfter_concat (p : List Demand → Demand → Bool) (ds : List Demand) (d : Demand) :
    selectAfter p (ds ++ [d]) = selectAfter p ds ++ if p ds d then [d] else [] := by
  have hearlier : ds.zipIdx.filter (fun (e, i) => p ((ds ++ [d]).take i) e) =
      ds.zipIdx.filter fun (e, i) => p (ds.take i) e := by
    refine List.filter_congr ?_
    rintro ⟨e, i⟩ hmem
    have hbound : i ≤ ds.length := by
      obtain ⟨-, hlt, -⟩ := List.mem_zipIdx hmem
      omega
    simp only [List.take_append_of_le_length hbound]
  unfold selectAfter
  rw [List.zipIdx_append, List.filter_append, hearlier, List.map_append]
  simp only [List.zipIdx_singleton, List.filter_cons, List.filter_nil, Nat.zero_add,
    List.take_append_of_le_length (Nat.le_refl _), List.take_length]
  split <;> rfl

theorem selectAfter_sublist {p q : List Demand → Demand → Bool}
    (h : ∀ earlier d, p earlier d = true → q earlier d = true) (ds : List Demand) :
    (selectAfter p ds).Sublist (selectAfter q ds) :=
  (List.monotone_filter_right _ fun _ => h _ _).map Prod.fst

namespace VisitedPolicy

variable (policy : VisitedPolicy) (ds : List Demand) {d : Demand}

/-- The demands whose key no earlier one has. -/
def newcomers : List Demand :=
  selectAfter (fun earlier d => decide (policy.key d ∉ earlier.map policy.key)) ds

/-- The demands whose key an earlier one has. -/
def repeats : List Demand :=
  selectAfter (fun earlier d => decide (policy.key d ∈ earlier.map policy.key)) ds

theorem newcomers_concat (d : Demand) : policy.newcomers (ds ++ [d]) =
    policy.newcomers ds ++ if policy.key d ∉ ds.map policy.key then [d] else [] := by
  rw [newcomers, selectAfter_concat]
  simp only [decide_eq_true_eq]
  rfl

theorem repeats_concat (d : Demand) : policy.repeats (ds ++ [d]) =
    policy.repeats ds ++ if policy.key d ∈ ds.map policy.key then [d] else [] := by
  rw [repeats, selectAfter_concat]
  simp only [decide_eq_true_eq]
  rfl

/-- Demands with the same query and parent have the same query. -/
theorem key_queryIdentity_congr {d e : Demand} (h : queryInScope.key d = queryInScope.key e) :
    queryIdentity.key d = queryIdentity.key e := by
  injection h with hquery
  rw [key, key, hquery]

theorem newcomers_identity_sublist :
    (queryIdentity.newcomers ds).Sublist (queryInScope.newcomers ds) := by
  refine selectAfter_sublist (fun earlier d h => ?_) ds
  rw [decide_eq_true_eq] at h ⊢
  intro hold
  obtain ⟨e, he, hkey⟩ := List.mem_map.1 hold
  exact h (List.mem_map.2 ⟨e, he, key_queryIdentity_congr hkey⟩)

end VisitedPolicy

namespace Agenda

inductive Operation where
  | push (d : Demand)
  | pop
deriving DecidableEq, Repr

/-- The demands that are pushed, in order. -/
def pushes (ops : List Operation) : List Demand :=
  ops.filterMap fun
    | .push d => some d
    | .pop => none

/-- An agenda with what its operations have answered so far: the demands taken off it and those
that it did not accept. -/
structure Ledger where
  agenda : Agenda
  taken : List Demand
  refused : List Demand

namespace Ledger

variable {policy : VisitedPolicy} {l : Ledger} {pushed : List Demand}

def operate (l : Ledger) : Operation → Ledger
  | .push d =>
    { l with
      agenda := l.agenda.push d
      refused := if l.agenda.accepts d then l.refused else l.refused ++ [d] }
  | .pop =>
    match l.agenda.pop? with
    | none => l
    | some (d, rest) => { l with agenda := rest, taken := l.taken ++ [d] }

/-- The operations one after another, beginning with an empty agenda. -/
def ofOperations (policy : VisitedPolicy) (ops : List Operation) : Ledger :=
  ops.foldl operate ⟨.empty policy, [], []⟩

/-- All demands that have been accepted. -/
def accepted (l : Ledger) : List Demand := l.taken ++ l.agenda.queue

/-- What the ledger says of the demands pushed so far. -/
structure Follows (l : Ledger) (policy : VisitedPolicy) (pushed : List Demand) : Prop where
  agendaPolicy : l.agenda.policy = policy
  accepted : l.accepted = policy.newcomers pushed
  refused : l.refused = policy.repeats pushed
  dropped : l.agenda.dropped = l.refused.length
  visited : ∀ k, k ∈ l.agenda.visited ↔ k ∈ pushed.map policy.key
  nodup : l.agenda.visited.Nodup

namespace Follows

theorem empty (policy : VisitedPolicy) : Follows ⟨.empty policy, [], []⟩ policy [] :=
  ⟨rfl, rfl, rfl, rfl, fun _ => Iff.rfl, List.nodup_nil⟩

theorem accepts_iff (h : l.Follows policy pushed) (d : Demand) :
    l.agenda.accepts d = true ↔ policy.key d ∉ pushed.map policy.key := by
  rw [Agenda.accepts_iff, h.visited, h.agendaPolicy]

theorem push (h : l.Follows policy pushed) (d : Demand) :
    (l.operate (.push d)).Follows policy (pushed ++ [d]) := by
  have hvisited : ∀ k, k ∈ (l.agenda.push d).visited ↔ k ∈ (pushed ++ [d]).map policy.key := by
    intro k
    rw [mem_visited_push, h.visited, h.agendaPolicy, List.map_append, List.mem_append,
      List.map_singleton, List.mem_singleton]
  have hpolicy : (l.agenda.push d).policy = policy := by rw [policy_push, h.agendaPolicy]
  cases haccepts : l.agenda.accepts d with
  | true =>
    have hnew := (h.accepts_iff d).1 haccepts
    refine ⟨hpolicy, ?_, ?_, ?_, hvisited, nodup_push h.nodup⟩
    · rw [policy.newcomers_concat, if_pos hnew, ← h.accepted]
      simp only [Ledger.accepted, operate, push_of_accepts haccepts, List.append_assoc]
    · rw [policy.repeats_concat, if_neg hnew, List.append_nil, ← h.refused]
      simp only [operate, haccepts, if_true]
    · simp only [operate, haccepts, if_true, push_of_accepts haccepts, h.dropped]
  | false =>
    have hold : policy.key d ∈ pushed.map policy.key := by
      rw [← h.visited, ← h.agendaPolicy, ← seen_iff, haccepts]
    refine ⟨hpolicy, ?_, ?_, ?_, hvisited, nodup_push h.nodup⟩
    · rw [policy.newcomers_concat, if_neg (not_not_intro hold), List.append_nil, ← h.accepted]
      simp only [Ledger.accepted, operate, push_of_seen haccepts]
    · rw [policy.repeats_concat, if_pos hold, ← h.refused]
      simp only [operate, haccepts, Bool.false_eq_true, if_false]
    · simp only [operate, haccepts, Bool.false_eq_true, if_false, push_of_seen haccepts, h.dropped,
        List.length_append, List.length_singleton]

theorem pop (h : l.Follows policy pushed) : (l.operate .pop).Follows policy pushed := by
  cases hqueue : l.agenda.queue with
  | nil =>
    have hsame : l.operate .pop = l := by simp only [operate, pop?, hqueue]
    rw [hsame]
    exact h
  | cons d rest =>
    have hpop : l.operate .pop =
        { l with agenda := { l.agenda with queue := rest }, taken := l.taken ++ [d] } := by
      simp only [operate, pop?, hqueue]
    rw [hpop]
    refine ⟨h.agendaPolicy, ?_, h.refused, h.dropped, h.visited, h.nodup⟩
    rw [← h.accepted, Ledger.accepted, Ledger.accepted, hqueue, List.append_assoc,
      List.singleton_append]

theorem foldl (h : l.Follows policy pushed) (ops : List Operation) :
    (ops.foldl operate l).Follows policy (pushed ++ pushes ops) := by
  induction ops generalizing l pushed with
  | nil => exact (List.append_nil pushed).symm ▸ h
  | cons op ops ih =>
    cases op with
    | push d =>
      have hlater := ih (h.push d)
      rw [List.append_assoc] at hlater
      exact hlater
    | pop => exact ih h.pop

end Follows

theorem follows (policy : VisitedPolicy) (ops : List Operation) :
    (ofOperations policy ops).Follows policy (pushes ops) := (Follows.empty policy).foldl ops

/-- An agenda takes each key once, in the order of the first pushes, whatever is popped in
between. -/
theorem operations_deduplicate (policy : VisitedPolicy) (ops : List Operation) :
    let l := ofOperations policy ops
    let pushed := pushes ops
    l.taken ++ l.agenda.queue = policy.newcomers pushed ∧
      l.agenda.visitedCount = (pushed.map policy.key).toFinset.card ∧
      l.agenda.dropped = l.refused.length ∧ l.refused = policy.repeats pushed ∧
      (∀ d, l.agenda.accepts d = true ↔ policy.key d ∉ pushed.map policy.key) ∧
      (∀ d, (l.operate .pop).agenda.accepts d = l.agenda.accepts d) ∧
      ∀ other, pushes other = pushed →
        (ofOperations .queryIdentity ops).accepted.Sublist
          (ofOperations .queryInScope other).accepted := by
  intro l pushed
  have h : l.Follows policy pushed := follows policy ops
  have hkeys : (pushed.map policy.key).toFinset = l.agenda.visited.toFinset :=
    Finset.ext fun k => by rw [List.mem_toFinset, List.mem_toFinset, h.visited]
  refine ⟨h.accepted, ?_, h.dropped, h.refused, h.accepts_iff, fun d => ?_, fun other hother => ?_⟩
  · rw [hkeys, List.toFinset_card_of_nodup h.nodup, visitedCount]
  · rw [Bool.eq_iff_iff, h.accepts_iff, h.pop.accepts_iff]
  · rw [(follows .queryIdentity ops).accepted, (follows .queryInScope other).accepted, hother]
    exact VisitedPolicy.newcomers_identity_sublist pushed

/-- A query on null where the first statement meets the second. -/
def nullQuery : Query := .backward ⟨⟨⟨0⟩, ⟨1⟩⟩, .null⟩

/-- The query at top level and on its own behalf, then at top level again. -/
def repeatedPushes : List Demand :=
  [.topLevel nullQuery, .within nullQuery nullQuery.cell nullQuery, .topLevel nullQuery]

theorem operations_deduplicate_repeated :
    let ops := (repeatedPushes.take 2).map Operation.push ++ [.pop] ++
      (repeatedPushes.drop 2).map Operation.push
    let other := repeatedPushes.map Operation.push ++ [.pop, .pop, .pop]
    pushes other = pushes ops ∧
      (ofOperations .queryIdentity ops).accepted = repeatedPushes.take 1 ∧
      (ofOperations .queryInScope other).accepted = repeatedPushes.take 2 ∧
      (ofOperations .queryIdentity ops).agenda.dropped = 2 ∧
      (ofOperations .queryIdentity ops).accepted.Sublist
        (ofOperations .queryInScope other).accepted := by
  intro ops other
  obtain ⟨haccepted, -, hdropped, hrefused, -, -, hsublist⟩ :=
    operations_deduplicate .queryIdentity ops
  obtain ⟨hscoped, -⟩ := operations_deduplicate .queryInScope other
  have hsame : pushes other = pushes ops := by decide
  refine ⟨hsame, haccepted.trans (by decide), hscoped.trans (by decide), ?_, hsublist other hsame⟩
  rw [hdropped, hrefused]
  decide

end Ledger

end Agenda

end GuidedDataflow
