import Mathlib.Data.List.Perm.Subperm
import GuidedDataflow.Guide.Agenda

/-!
What pushing demands does to an agenda. A queued demand was pushed, a visited key belongs to a
pushed demand and is there once, and the agenda has grown by as many demands as keys. Of the
pushed demands those are queued, in order, whose keys are new, each key by its first demand.
Where all keys are some of a list, what can still come to be queued is bounded by the keys that
have not been seen.
-/

namespace GuidedDataflow

namespace Agenda

def pushAll (a : Agenda) (ds : List Demand) : Agenda := ds.foldl push a

variable (a : Agenda) (d : Demand) (ds : List Demand)

@[simp] theorem pushAll_nil : a.pushAll [] = a := rfl

@[simp] theorem pushAll_cons : a.pushAll (d :: ds) = (a.push d).pushAll ds := rfl

theorem pushAll_append (es : List Demand) : a.pushAll (ds ++ es) = (a.pushAll ds).pushAll es :=
  List.foldl_append

theorem accepts_iff : a.accepts d = true ↔ a.policy.key d ∉ a.visited := by
  simp [accepts]

theorem seen_iff : a.accepts d = false ↔ a.policy.key d ∈ a.visited := by
  simp [accepts]

@[simp] theorem policy_push : (a.push d).policy = a.policy := by
  unfold push
  split <;> rfl

@[simp] theorem policy_pushAll : (a.pushAll ds).policy = a.policy := by
  induction ds generalizing a with
  | nil => rfl
  | cons d ds ih => rw [pushAll_cons, ih, policy_push]

variable {a d ds}

theorem push_of_accepts (h : a.accepts d = true) : a.push d =
    { a with queue := a.queue ++ [d], visited := a.policy.key d :: a.visited } := by
  rw [push, h, if_pos rfl]

theorem push_of_seen (h : a.accepts d = false) :
    a.push d = { a with dropped := a.dropped + 1 } := by
  rw [push, h, if_neg Bool.false_ne_true]

theorem mem_queue_push {e : Demand} (h : e ∈ (a.push d).queue) : e ∈ a.queue ∨ e = d := by
  unfold push at h
  split at h
  · simpa using h
  · exact .inl h

theorem mem_queue_pushAll {e : Demand} (h : e ∈ (a.pushAll ds).queue) : e ∈ a.queue ∨ e ∈ ds := by
  induction ds generalizing a with
  | nil => exact .inl h
  | cons d ds ih =>
    rcases ih h with hold | hlater
    · rcases mem_queue_push hold with hold | rfl
      · exact .inl hold
      · exact .inr List.mem_cons_self
    · exact .inr (List.mem_cons_of_mem d hlater)

theorem nodup_push (h : a.visited.Nodup) : (a.push d).visited.Nodup := by
  unfold push
  split
  · next hfresh => exact List.nodup_cons.2 ⟨(a.accepts_iff d).1 hfresh, h⟩
  · exact h

theorem nodup_pushAll (h : a.visited.Nodup) : (a.pushAll ds).visited.Nodup := by
  induction ds generalizing a with
  | nil => exact h
  | cons d ds ih => exact ih (nodup_push h)

theorem mem_visited_push {k : DemandKey} :
    k ∈ (a.push d).visited ↔ k ∈ a.visited ∨ k = a.policy.key d := by
  cases h : a.accepts d with
  | true =>
    rw [push_of_accepts h, List.mem_cons]
    exact Or.comm
  | false =>
    rw [push_of_seen h]
    exact ⟨.inl, fun hk => hk.elim id fun hkey => hkey ▸ (seen_iff a d).1 h⟩

theorem mem_visited_pushAll {k : DemandKey} :
    k ∈ (a.pushAll ds).visited ↔ k ∈ a.visited ∨ ∃ d ∈ ds, k = a.policy.key d := by
  induction ds generalizing a with
  | nil => simp
  | cons d ds ih =>
    rw [pushAll_cons, ih, mem_visited_push, policy_push, or_assoc]
    simp only [List.mem_cons, exists_eq_or_imp]

theorem accepts_push (e : Demand) :
    (a.push d).accepts e = (a.accepts e && decide (a.policy.key e ≠ a.policy.key d)) := by
  rw [Bool.eq_iff_iff, Bool.and_eq_true, accepts_iff, accepts_iff, policy_push, decide_eq_true_eq,
    mem_visited_push, not_or]

/-- What has been seen stays so. -/
theorem seen_push {e : Demand} (h : a.accepts e = false) : (a.push d).accepts e = false := by
  rw [accepts_push, h, Bool.false_and]

theorem seen_pushAll (h : a.accepts d = false) : (a.pushAll ds).accepts d = false := by
  rw [seen_iff] at h ⊢
  rw [policy_pushAll, mem_visited_pushAll]
  exact .inl h

theorem seen_of_mem (h : d ∈ ds) : (a.pushAll ds).accepts d = false := by
  rw [seen_iff, policy_pushAll, mem_visited_pushAll]
  exact .inr ⟨d, h, rfl⟩

end Agenda

/-- The first demand with each key. -/
def VisitedPolicy.firsts (policy : VisitedPolicy) (ds : List Demand) : List Demand :=
  ds.eraseDupsBy fun d e => decide (policy.key d = policy.key e)

theorem VisitedPolicy.firsts_cons (policy : VisitedPolicy) (d : Demand) (ds : List Demand) :
    policy.firsts (d :: ds) =
      d :: policy.firsts (ds.filter fun e => decide (policy.key e ≠ policy.key d)) := by
  unfold firsts
  rw [List.eraseDupsBy_cons]
  simp only [decide_eq_false_iff_not, ne_eq]

namespace Agenda

variable (a : Agenda) (d : Demand) (ds : List Demand)

/-- Those of the demands that pushing them all would queue. -/
def fresh : List Demand := a.policy.firsts (ds.filter a.accepts)

@[simp] theorem fresh_nil : a.fresh [] = [] := rfl

theorem fresh_cons : a.fresh (d :: ds) =
    (if a.accepts d then [d] else []) ++ (a.push d).fresh ds := by
  unfold fresh
  rw [policy_push]
  cases h : a.accepts d with
  | true =>
    have hlater : ds.filter (a.push d).accepts =
        (ds.filter a.accepts).filter fun e => decide (a.policy.key e ≠ a.policy.key d) := by
      rw [List.filter_filter]
      exact List.filter_congr fun e _ => (accepts_push e).trans (Bool.and_comm _ _)
    rw [List.filter_cons_of_pos h, VisitedPolicy.firsts_cons, hlater]
    rfl
  | false =>
    rw [List.filter_cons_of_neg (Bool.eq_false_iff.1 h), push_of_seen h]
    rfl

theorem queue_pushAll : (a.pushAll ds).queue = a.queue ++ a.fresh ds := by
  induction ds generalizing a with
  | nil => simp
  | cons d ds ih =>
    have hpush : (a.push d).queue = a.queue ++ (if a.accepts d then [d] else []) := by
      unfold push
      split <;> simp
    rw [pushAll_cons, ih, fresh_cons, hpush, List.append_assoc]

theorem visited_pushAll :
    (a.pushAll ds).visited = ((a.fresh ds).map a.policy.key).reverse ++ a.visited := by
  induction ds generalizing a with
  | nil => rfl
  | cons d ds ih =>
    rw [pushAll_cons, ih, fresh_cons, policy_push]
    cases h : a.accepts d with
    | true => simp [push_of_accepts h]
    | false => simp [push_of_seen h]

/-- What is queued is also visited. -/
theorem length_pushAll : (a.pushAll ds).visited.length + a.queue.length =
    a.visited.length + (a.pushAll ds).queue.length := by
  rw [visited_pushAll, queue_pushAll]
  simp only [List.length_append, List.length_reverse, List.length_map]
  omega

theorem fresh_append (es : List Demand) :
    a.fresh (ds ++ es) = a.fresh ds ++ (a.pushAll ds).fresh es := by
  induction ds generalizing a with
  | nil => rfl
  | cons d ds ih =>
    rw [List.cons_append, fresh_cons, ih, fresh_cons, List.append_assoc, pushAll_cons]

theorem fresh_empty (policy : VisitedPolicy) : (empty policy).fresh ds = policy.firsts ds := by
  have hall : ds.filter (empty policy).accepts = ds := List.filter_eq_self.2 fun _ _ => rfl
  rw [fresh, hall]
  rfl

/-- A demand that pushing queues is accepted behind the ones before it. -/
theorem accepts_of_mem_fresh {a : Agenda} {d : Demand} {ds : List Demand} (h : d ∈ a.fresh ds) :
    ∃ before after, ds = before ++ d :: after ∧ (a.pushAll before).accepts d = true := by
  induction ds generalizing a with
  | nil => exact absurd h List.not_mem_nil
  | cons e ds ih =>
    rw [fresh_cons] at h
    rcases List.mem_append.1 h with hfirst | hlater
    · split at hfirst
      · next haccepts =>
        obtain rfl := List.mem_singleton.1 hfirst
        exact ⟨[], ds, rfl, haccepts⟩
      · exact absurd hfirst List.not_mem_nil
    · obtain ⟨before, after, rfl, haccepts⟩ := ih hlater
      exact ⟨e :: before, after, rfl, haccepts⟩

end Agenda

namespace VisitedPolicy

variable (policy : VisitedPolicy) (ds : List Demand)

theorem query_key (d : Demand) : (policy.key d).query = d.query := by
  cases policy <;> rfl

theorem visited_eq_firsts :
    ((Agenda.empty policy).pushAll ds).visited = ((policy.firsts ds).map policy.key).reverse := by
  rw [Agenda.visited_pushAll, Agenda.fresh_empty]
  exact List.append_nil _

theorem mem_keys_firsts {k : DemandKey} :
    k ∈ (policy.firsts ds).map policy.key ↔ ∃ d ∈ ds, k = policy.key d := by
  rw [← List.mem_reverse, ← visited_eq_firsts, Agenda.mem_visited_pushAll]
  exact or_iff_right List.not_mem_nil

theorem nodup_keys_firsts : ((policy.firsts ds).map policy.key).Nodup := by
  have hvisited : ((Agenda.empty policy).pushAll ds).visited.Nodup :=
    Agenda.nodup_pushAll List.nodup_nil
  rw [visited_eq_firsts] at hvisited
  exact (List.pairwise_reverse.1 hvisited).imp Ne.symm

end VisitedPolicy

/-- The keys that have been seen are some of the listed ones, each once. With `bound` keys to see
at most, so many demands can still be taken off the queue. -/
structure Agenda.Fits (a : Agenda) (keys : List DemandKey) (bound fuel : Nat) : Prop where
  nodup : a.visited.Nodup
  visited : ∀ k ∈ a.visited, k ∈ keys
  room : bound + a.queue.length ≤ fuel + a.visited.length

namespace Agenda.Fits

variable {a : Agenda} {keys : List DemandKey} {bound fuel : Nat}

theorem queue_length_le (h : a.Fits keys bound fuel) (hbound : keys.length ≤ bound) :
    a.queue.length ≤ fuel := by
  have hvisited := (List.subperm_of_subset h.nodup h.visited).length_le
  have hroom := h.room
  omega

/-- Taking a demand off uses up one, whatever is then pushed. -/
theorem pushAll {d : Demand} {rest ds : List Demand} (h : a.Fits keys bound (fuel + 1))
    (hqueue : a.queue = d :: rest) (hds : ∀ e ∈ ds, a.policy.key e ∈ keys) :
    Fits (({ a with queue := rest } : Agenda).pushAll ds) keys bound fuel := by
  refine ⟨nodup_pushAll h.nodup, fun k hk => ?_, ?_⟩
  · rcases mem_visited_pushAll.1 hk with hold | ⟨e, he, rfl⟩
    · exact h.visited k hold
    · exact hds e he
  · have hlength := length_pushAll { a with queue := rest } ds
    have hroom := h.room
    rw [hqueue, List.length_cons] at hroom
    simp only at hlength
    omega

end Agenda.Fits

end GuidedDataflow
