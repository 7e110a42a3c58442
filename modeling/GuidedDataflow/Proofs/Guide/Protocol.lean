import GuidedDataflow.Guide.Prepared
import GuidedDataflow.Proofs.Guide.Closure

/-!
How a run uses its backend, whatever that answers. A run opens at most one session, asks it one
demand after another and closes it at the end; nothing is asked after a failure. The first
demand is the initial query. Every later one was accepted while an earlier answer was taken
in: a table matched then on behalf of its parent holds its trigger, and the parent was solved
or listed by the session.
-/

namespace GuidedDataflow

variable {σ : Type}

/-- A place in a concatenation is a place in one of the parts. -/
theorem exists_of_flatMap_eq {α β : Type} {f : α → List β} {l : List α} {y : β}
    {before after : List β} (h : l.flatMap f = before ++ y :: after) :
    ∃ earlier a later front back, l = earlier ++ a :: later ∧ f a = front ++ y :: back ∧
      before = earlier.flatMap f ++ front := by
  induction l generalizing before with
  | nil => simp at h
  | cons a l ih =>
    rw [List.flatMap_cons] at h
    rcases List.append_eq_append_iff.1 h with ⟨front, rfl, hrest⟩ | ⟨back, ha, hback⟩
    · obtain ⟨earlier, a', later, front', back, rfl, ha', rfl⟩ := ih hrest
      exact ⟨a :: earlier, a', later, front', back, rfl, ha', by simp⟩
    · cases back with
      | nil =>
        rw [List.nil_append] at hback
        have hnone : l.flatMap f = [] ++ y :: after := hback.symm
        obtain ⟨earlier, a', later, front, back, rfl, ha', hfront⟩ := ih hnone
        refine ⟨a :: earlier, a', later, front, back, rfl, ha', ?_⟩
        rw [List.append_nil] at ha
        rw [List.flatMap_cons, ha, List.append_assoc, ← hfront, List.append_nil]
      | cons y' back =>
        obtain ⟨rfl, -⟩ := List.cons.inj hback
        exact ⟨[], a, l, before, back, rfl, ha, rfl⟩

namespace Setup

/-- Asked one demand after another, the session answers with these solves. The result is an
error of the solver if and only if the last demand fails, and no other does. -/
inductive Served (b : Backend σ) :
    σ → List Demand → List (Solved σ) → Except RunError Report → Prop
  | ended {s : σ} {result : Except RunError Report}
      (unfailed : ∀ e, result ≠ .error (.solver e)) : Served b s [] [] result
  | failed {s : σ} {d : Demand} {e : SolveError} (fails : b.solve s d = .error e) :
      Served b s [d] [] (.error (.solver e))
  | answered {s : σ} {sol : Solved σ} {asked : List Demand} {solved : List (Solved σ)}
      {result : Except RunError Report}
      (answers : b.solve s sol.demand = .ok (sol.table, sol.session))
      (next : Served b sol.session asked solved result) :
      Served b s (sol.demand :: asked) (sol :: solved) result

theorem Served.error_of_unanswered {b : Backend σ} {s : σ} {asked : List Demand}
    {solved : List (Solved σ)} {result : Except RunError Report}
    (h : Served b s asked solved result) (hlt : solved.length < asked.length) :
    ∃ e, result = .error (.solver e) := by
  induction h with
  | ended => exact absurd hlt (Nat.lt_irrefl 0)
  | failed => exact ⟨_, rfl⟩
  | answered _ _ ih => exact ih (Nat.lt_of_succ_lt_succ hlt)

/-- A table that is at hand after the solve holds the demand's trigger: that of the demand's
parent, which is the solved query or a forward query that the session lists. -/
inductive Prompts (b : Backend σ) (sol : Solved σ) : Demand → Prop
  | own {q : Query} {c : Cell} (trigger : c ∈ sol.table) :
      Prompts b sol (.within q c sol.demand.query)
  | site {q : Query} {c : Cell} {asked : BackwardQuery} {f : ForwardQuery} {t : Table}
      (backward : sol.demand.query = .backward asked)
      (reported : f ∈ b.allocationSites sol.session asked)
      (table : b.forwardTable? sol.session f = some t) (trigger : c ∈ t) :
      Prompts b sol (.within q c (.forward f))
  | active {q : Query} {c : Cell} {f : ForwardQuery} {t : Table}
      (listed : f ∈ b.activeForward sol.session)
      (table : b.forwardTable? sol.session f = some t) (trigger : c ∈ t) :
      Prompts b sol (.within q c (.forward f))

/-- One of the solves prompts the demand and made it be accepted: no demand with its key had
come up before, neither the initial one nor among those that the solves gave rise to. -/
inductive Accepted (u : Setup) (b : Backend σ) (initial : Query) (solved : List (Solved σ))
    (d : Demand) : Prop
  | after {earlier later : List (Solved σ)} {sol : Solved σ} {front back : List Demand}
      (split : solved = earlier ++ sol :: later) (prompts : Prompts b sol d)
      (arises : u.offspring b sol = front ++ d :: back)
      (fresh : ∀ e ∈ Demand.topLevel initial :: (earlier.flatMap (u.offspring b) ++ front),
        u.config.visitedPolicy.key e ≠ u.config.visitedPolicy.key d) :
      Accepted u b initial solved d

variable {u : Setup} {b : Backend σ}

theorem prompts_of_mem_offspring {sol : Solved σ} {d : Demand} (h : d ∈ u.offspring b sol) :
    Prompts b sol d := by
  obtain ⟨m, hm, x, hx, rfl⟩ := mem_offspring.1 h
  have htrigger := (yields_iff.1 hx).1
  cases hm with
  | own => exact .own htrigger
  | site backward _ reported table => exact .site backward reported table htrigger
  | active _ _ listed table => exact .active listed table htrigger

namespace Trace

variable {fuel : Nat} {s : σ} {p : Progress} {solved : List (Solved σ)}
  {calls : List BackendCall} {result : Except RunError Report}

theorem exists_served (h : u.Trace b fuel s p solved calls result) :
    ∃ asked, calls = asked.map .solve ∧ Served b s asked solved result := by
  induction h with
  | done => exact ⟨[], rfl, .ended fun _ h => nomatch h⟩
  | capped => exact ⟨[], rfl, .ended fun _ h => nomatch h⟩
  | exhausted => exact ⟨[], rfl, .ended fun _ h => nomatch h⟩
  | failed _ _ fails => exact ⟨[_], rfl, .failed fails⟩
  | @solved _ s s' _ d _ t _ _ _ _ _ solves _ ih =>
    obtain ⟨asked, rfl, hserved⟩ := ih
    have hanswers : b.solve s (⟨d, t, s'⟩ : Solved σ).demand = .ok (t, s') := solves
    exact ⟨d :: asked, rfl, .answered hanswers hserved⟩

/-- What has been asked was queued to begin with or by the solves before it, in this order. -/
theorem asked_prefix (h : u.Trace b fuel s p solved calls result) {before after : List Demand}
    {d : Demand} (hcalls : calls = (before ++ d :: after).map .solve) :
    before ++ [d] <+: p.agenda.queue ++
      p.agenda.fresh ((solved.take before.length).flatMap (u.offspring b)) := by
  induction h generalizing before with
  | done => simp at hcalls
  | capped => simp at hcalls
  | exhausted => simp at hcalls
  | @failed _ _ p d' rest _ queue _ _ =>
    cases before with
    | nil =>
      obtain ⟨hd, -⟩ := List.cons.inj hcalls
      obtain rfl := BackendCall.solve.inj hd
      rw [queue]
      exact List.prefix_append [d'] _
    | cons first before => simp at hcalls
  | @solved _ s s' p d' rest t later _ _ queue _ _ _ ih =>
    cases before with
    | nil =>
      obtain ⟨hd, -⟩ := List.cons.inj hcalls
      obtain rfl := BackendCall.solve.inj hd
      rw [queue]
      exact List.prefix_append [d'] _
    | cons first before =>
      obtain ⟨hfirst, hlater⟩ := List.cons.inj hcalls
      obtain rfl := BackendCall.solve.inj hfirst
      have hpopped : ∀ ds, p.agenda.fresh ds = (p.popped rest).agenda.fresh ds := fun _ => rfl
      have hnext := ih hlater
      rw [Progress.agenda_afterSolve, Agenda.queue_pushAll, List.append_assoc] at hnext
      rw [queue, List.length_cons, List.take_succ_cons, List.flatMap_cons, hpopped,
        Agenda.fresh_append, List.cons_append, List.cons_append, List.cons_prefix_cons]
      exact ⟨rfl, hnext⟩

variable {policy : VisitedPolicy} {initial : Query}

/-- With any room for it the initial query is asked first. -/
theorem asks_initial (h : u.Trace b (fuel + 1) s (.start policy initial) solved calls result) :
    ∃ later, calls = .solve (.topLevel initial) :: later := by
  have hqueue : (Progress.start policy initial).agenda.queue = [.topLevel initial] := rfl
  cases h with
  | done queue => cases hqueue.symm.trans queue
  | capped queue cap =>
    have hzero : (Progress.start policy initial).statistics.totalSolved = 0 := rfl
    simp [Progress.capReached, hzero] at cap
    omega
  | failed queue =>
    obtain ⟨rfl, -⟩ := List.cons.inj (hqueue.symm.trans queue)
    exact ⟨_, rfl⟩
  | solved queue =>
    obtain ⟨rfl, -⟩ := List.cons.inj (hqueue.symm.trans queue)
    exact ⟨_, rfl⟩

theorem accepted (h : u.Trace b fuel s (.start u.config.visitedPolicy initial) solved calls result)
    {before after : List Demand} {d : Demand}
    (hcalls : calls = (.topLevel initial :: before ++ d :: after).map .solve) :
    u.Accepted b initial (solved.take (before.length + 1)) d := by
  have hprefix := h.asked_prefix hcalls
  have hstart : (Progress.start u.config.visitedPolicy initial).agenda =
      (Agenda.empty u.config.visitedPolicy).pushAll [.topLevel initial] := rfl
  have hqueue : (Progress.start u.config.visitedPolicy initial).agenda.queue =
    [.topLevel initial] := rfl
  rw [hqueue, List.cons_append, List.cons_append, List.cons_prefix_cons] at hprefix
  have hfresh := hprefix.2.subset (List.mem_append_right _ (List.mem_singleton_self d))
  obtain ⟨xs, ys, hsplit, haccepts⟩ := Agenda.accepts_of_mem_fresh hfresh
  obtain ⟨earlier, sol, later, front, back, htake, harises, rfl⟩ := exists_of_flatMap_eq hsplit
  have hmem : d ∈ u.offspring b sol := by
    rw [harises]
    exact List.mem_append_right _ List.mem_cons_self
  rw [Agenda.accepts_iff, hstart, ← Agenda.pushAll_append, Agenda.policy_pushAll,
    Agenda.mem_visited_pushAll, not_or, not_exists] at haccepts
  exact .after htake (prompts_of_mem_offspring hmem) harises fun e he heq =>
    haccepts.2 e ⟨he, heq.symm⟩

end Trace

/-- Answers for the exchange of a relayed call; the second solve fails. -/
def failingExchange : Prepared where
  tables := [(.backward Session.relayResult,
    .ofCells [⟨Session.relayResult.edge, Session.relayResult.value⟩])]
  sites := []
  failOn := some 2
  failStart := false

end Setup

end GuidedDataflow
