import GuidedDataflow.Proofs.Solver.Recorded

/-!
Flat programs, in which no call enters a method of the program. There call strings stay empty,
so every solve starts where a solve at top level starts, and finds what that finds in a new
session, whatever has been solved before.
-/

namespace GuidedDataflow

open Std

/-- No call targets a declared method. -/
def Program.Flat (p : Program) : Prop :=
  ∀ s ∈ p.statements.toList, ∀ call ∈ s.call?, p.method? call.target = none

namespace Flow

variable {p : Program} {k : Nat}

theorem empty_of_mem_returnSites {method : Signature} {caller : CallString} {site : StmtId}
    (h : (site, caller) ∈ returnSites p method .empty) : caller = .empty := by
  rcases mem_returnSites.1 h with hpush | ⟨-, hempty, -⟩
  · have hsites := congrArg CallString.sites hpush
    simp [CallString.push, CallString.empty] at hsites
  · exact hempty

/-- No step enters a callee, and a return from where the caller is unknown forgets nothing. -/
theorem stable_flat (hflat : p.Flat) : Stable p k fun f => f.context = .empty := by
  have hundeclared : ∀ {id s result call callee}, p.statement? id = some s →
      s.action = .invoke result call → p.method? call.target ≠ some callee := by
    intro id s result call callee hs ha hm
    have hcall : call ∈ s.call? := by rw [Statement.call?, ha, Option.mem_some_iff]
    rw [hflat s (Program.mem_of_statement? hs) call hcall] at hm
    cases hm
  intro d f g hf hg
  cases d with
  | forward =>
    cases mem_forward.1 hg with
    | within => exact hf
    | enter hs ha hm => exact absurd hm (hundeclared hs ha)
    | leave _ _ hsite =>
      rw [hf] at hsite
      exact empty_of_mem_returnSites hsite
  | backward =>
    cases mem_backward.1 hg with
    | within => exact hf
    | enter hs ha hm => exact absurd hm (hundeclared hs ha)
    | leave _ _ hsite =>
      rw [hf] at hsite
      exact empty_of_mem_returnSites hsite

end Flow

namespace Session

/-- The seeds of a solve at top level. -/
def topSeeds : Seeds := .singleton .empty

theorem eq_topSeeds {seeds : Seeds} (hsome : ∃ context, context ∈ seeds)
    (hall : ∀ context ∈ seeds, context = .empty) : seeds = topSeeds := by
  obtain ⟨some, hmem⟩ := hsome
  refine OrderedSet.ext fun context => ?_
  rw [topSeeds, OrderedSet.mem_singleton]
  exact ⟨hall context, fun heq => heq ▸ hall some hmem ▸ hmem⟩

/-- All facts that the session has recorded are under the empty string. -/
def Flat (s : Session) : Prop := s.Upholds fun f => f.context = .empty

variable {s : Session} {p : Program} {o : SolverOptions}

theorem exists_mem_of_scopeSeeds {q : Query} {scope : Scope} {seeds : Seeds}
    (h : s.scopeSeeds q scope = .ok seeds) : ∃ context, context ∈ seeds := by
  simp only [scopeSeeds] at h
  split at h
  · cases h
  · split at h
    · cases h
    · next hnonempty =>
      cases h
      cases hlist : (s.reachedUnder scope.parent scope.trigger).toList with
      | nil =>
        rw [OrderedSet.isEmpty, hlist] at hnonempty
        exact absurd rfl hnonempty
      | cons first rest => exact ⟨first, OrderedSet.mem_def.2 (hlist ▸ List.mem_cons_self)⟩

/-- Where only the empty string is recorded every demand starts from it. -/
theorem Flat.seedsOf (h : s.Flat) {d : Demand} {seeds : Seeds} (hseeds : s.seedsOf d = .ok seeds) :
    seeds = topSeeds := by
  have hstarts : d.StartsIn fun f => f.context = .empty := ⟨fun _ => rfl, fun _ _ _ hc => hc⟩
  refine eq_topSeeds ?_ (Upholds.starts h hstarts hseeds)
  unfold Session.seedsOf at hseeds
  cases hscope : d.scope with
  | none =>
    rw [hscope] at hseeds
    cases hseeds
    exact ⟨.empty, OrderedSet.mem_singleton.2 rfl⟩
  | some scope =>
    rw [hscope] at hseeds
    exact exists_mem_of_scopeSeeds hseeds

section Solve

variable (hp : p.WellFormed) (hflat : p.Flat)
include hp hflat

/-- In a flat program a solve is one at top level, whatever its scope. -/
theorem Ready.solve_flat (hs : s.Ready p o) (h : s.Flat) {d : Demand} {t : Table} {s' : Session}
    (hsolve : s.solve d = .ok (t, s')) : s'.Ready p o ∧ s'.Flat ∧ s' = s.after d.query topSeeds ∧
      t = (s.storeOf d.query topSeeds).table := by
  obtain ⟨seeds, hseeds, hfrom⟩ := exists_solveFrom hs.isOpen hsolve
  obtain rfl := h.seedsOf hseeds
  have hknows := (open_knows_of_solveFrom hfrom).2
  rw [solveFrom_eq (hs.program ▸ hp) hs.coherent hs.isOpen _ hknows] at hfrom
  cases hfrom
  have hstable : Flow.Stable s.program s.options.maxCallDepth fun f => f.context = .empty :=
    Flow.stable_flat (hs.program ▸ hflat)
  refine ⟨hs.after _ _, Upholds.after hstable ?_ (hs.program ▸ hp) hs.coherent h, rfl, rfl⟩
  exact fun context hcontext => OrderedSet.mem_singleton.1 hcontext

/-- In a flat program the sites of a solve are solved at top level. -/
theorem contextsOf_flat (hs : s.Ready p o) {b : BackwardQuery} {site : ForwardQuery}
    (h : site ∈ (s.exploreBackward b topSeeds).sites) :
    (s.exploreBackward b topSeeds).contextsOf site = topSeeds := by
  refine eq_topSeeds (BackwardRun.mem_sites.1 h) fun context hcontext => ?_
  obtain ⟨f, hreached, -, rfl⟩ := exists_reached_of_mem_contextsOf (hs.program ▸ hp) hcontext
  exact (Flow.stable_flat (hs.program ▸ hflat)).reached
    (fun context hcontext => OrderedSet.mem_singleton.1 hcontext) hreached

/-- In a flat program the forward tables that a solve brings are those of solves at top level. -/
theorem forwardTable?_after_flat (hs : s.Ready p o) {q : Query} {f : ForwardQuery}
    (h : q = .forward f ∨ ∃ b, q = .backward b ∧ f ∈ (s.exploreBackward b topSeeds).sites) :
    (s.after q topSeeds).forwardTable? f = some (s.storeOf (.forward f) topSeeds).table := by
  rcases h with rfl | ⟨b, rfl, hsite⟩
  · rw [after, forwardTable?_recordForward, if_pos rfl]
    rfl
  · rw [forwardTable?_after_backward, if_pos hsite, contextsOf_flat hp hflat hs hsite]
    rfl

end Solve

end Session

end GuidedDataflow
