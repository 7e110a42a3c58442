import Mathlib.Data.Set.Card
import GuidedDataflow.Solver.Exploration

/-!
What an exploration finds. Facts that have been expanded and facts that wait make up the
store, each once, and the successors of expanded facts are stored; so an exploration that
nothing waits in holds exactly the least set of facts that is closed under steps, and one that
stops earlier a part of it. With room for all facts it stops early only where the limits
refuse one of as many expansions as there are facts.
-/

namespace GuidedDataflow

/-- The sets that hold the seeds and, with every fact, all its successors. -/
def closedSets (step : Fact → List Fact) (seeds : List Fact) : Set (Set Fact) :=
  {S | (∀ f ∈ seeds, f ∈ S) ∧ ∀ f ∈ S, ∀ g ∈ step f, g ∈ S}

inductive Reaches (step : Fact → List Fact) (seeds : List Fact) : Fact → Prop
  | seed {f : Fact} (h : f ∈ seeds) : Reaches step seeds f
  | step {f g : Fact} (hf : Reaches step seeds f) (hg : g ∈ step f) : Reaches step seeds g

/-- The facts that steps lead to from the seeds. -/
def reached (step : Fact → List Fact) (seeds : List Fact) : Set Fact := {f | Reaches step seeds f}

/-- The limits allow this many steps. -/
def Affords (allows : Nat → Bool) (steps : Nat) : Prop :=
  ∀ n, 0 < n → n ≤ steps → allows n = true

variable {step : Fact → List Fact} {allows : Nat → Bool} {seeds : List Fact}

theorem isLeast_reached (step : Fact → List Fact) (seeds : List Fact) :
    IsLeast (closedSets step seeds) (reached step seeds) := by
  refine ⟨⟨fun f hf => Reaches.seed hf, fun f hf g hg => Reaches.step hf hg⟩, ?_⟩
  rintro S ⟨hseeds, hclosed⟩ f hf
  induction hf with
  | seed h => exact hseeds _ h
  | step _ hg ih => exact hclosed _ ih _ hg

/-- Where the clock does not run out, the step limit alone decides. -/
theorem SolverOptions.affords_iff {o : SolverOptions} (h : o.timeoutMs ≠ 0) {n : Nat} :
    Affords o.allows n ↔ o.maxPropagations = 0 ∨ n ≤ o.maxPropagations := by
  have hallows : ∀ k, o.allows k = true ↔ o.maxPropagations = 0 ∨ k ≤ o.maxPropagations := by
    intro k
    simp [allows, withinSteps, withinTime, h]
  simp only [Affords, hallows]
  constructor
  · intro hall
    by_cases hn : 0 < n
    · exact hall n hn le_rfl
    · exact .inr (by omega)
  · rintro (hfree | hle) k - hk
    · exact .inl hfree
    · exact .inr (hk.trans hle)

theorem ncard_eq_length {l : List Fact} {S : Set Fact} (hl : l.Nodup)
    (h : ∀ f, f ∈ l ↔ f ∈ S) : S.ncard = l.length := by
  have hS : S = (l.toFinset : Set Fact) := by
    ext f
    simp [← h]
  rw [hS, Set.ncard_coe_finset, List.toFinset_card_of_nodup hl]

theorem length_le_ncard {l cover : List Fact} {S : Set Fact} (hl : l.Nodup)
    (h : ∀ f ∈ l, f ∈ S) (hcover : ∀ f ∈ S, f ∈ cover) : l.length ≤ S.ncard := by
  have hfin : S.Finite := cover.toFinset.finite_toSet.subset fun f hf => by
    simpa using hcover f hf
  have hsub : (l.toFinset : Set Fact) ⊆ S := fun f hf => h f (by simpa using hf)
  calc l.length = (l.toFinset : Set Fact).ncard := by
        rw [Set.ncard_coe_finset, List.toFinset_card_of_nodup hl]
    _ ≤ S.ncard := Set.ncard_le_ncard hsub hfin

namespace FactStore

variable {s : FactStore} {f g : Fact} {fs : List Fact}

theorem addNew_of_mem (hf : f ∈ s) (fs : List Fact) : s.addNew (f :: fs) = s.addNew fs := by
  rw [addNew, add_of_mem hf]

theorem addNew_of_not_mem (hf : f ∉ s) (fs : List Fact) : s.addNew (f :: fs) =
    (((s.insert f).addNew fs).1, f :: ((s.insert f).addNew fs).2) := by
  rw [addNew, add_of_not_mem hf]

theorem mem_addNew : g ∈ (s.addNew fs).1 ↔ g ∈ s ∨ g ∈ fs := by
  induction fs generalizing s with
  | nil => simp [addNew]
  | cons f fs ih =>
    by_cases hf : f ∈ s
    · rw [addNew_of_mem hf, ih, List.mem_cons]
      constructor
      · rintro (h | h)
        · exact .inl h
        · exact .inr (.inr h)
      · rintro (h | rfl | h)
        · exact .inl h
        · exact .inl hf
        · exact .inr h
    · rw [addNew_of_not_mem hf, ih, mem_insert, List.mem_cons, or_assoc, or_left_comm]

theorem mem_addNew_fresh : g ∈ (s.addNew fs).2 ↔ g ∉ s ∧ g ∈ fs := by
  induction fs generalizing s with
  | nil => simp [addNew]
  | cons f fs ih =>
    by_cases hf : f ∈ s
    · rw [addNew_of_mem hf, ih, List.mem_cons]
      constructor
      · rintro ⟨h1, h2⟩
        exact ⟨h1, .inr h2⟩
      · rintro ⟨h1, rfl | h2⟩
        · exact absurd hf h1
        · exact ⟨h1, h2⟩
    · rw [addNew_of_not_mem hf]
      simp only [List.mem_cons, ih, mem_insert]
      by_cases hg : g = f
      · simp [hg, hf]
      · simp [hg]

theorem nodup_addNew_fresh (s : FactStore) (fs : List Fact) : (s.addNew fs).2.Nodup := by
  induction fs generalizing s with
  | nil => simp [addNew]
  | cons f fs ih =>
    by_cases hf : f ∈ s
    · rw [addNew_of_mem hf]
      exact ih s
    · rw [addNew_of_not_mem hf]
      refine List.nodup_cons.2 ⟨?_, ih _⟩
      rw [mem_addNew_fresh, mem_insert]
      simp

@[simp] theorem complete_addNew (s : FactStore) (fs : List Fact) :
    (s.addNew fs).1.complete = s.complete := by
  induction fs generalizing s with
  | nil => rfl
  | cons f fs ih =>
    by_cases hf : f ∈ s
    · rw [addNew_of_mem hf]
      exact ih s
    · rw [addNew_of_not_mem hf, ← complete_insert s f]
      exact ih _

end FactStore

namespace Exploration

/-- What holds of an exploration as long as it goes on. -/
structure Invariant (step : Fact → List Fact) (allows : Nat → Bool) (seeds : List Fact)
    (e : Exploration) : Prop where
  mem_store : ∀ f, f ∈ e.store ↔ f ∈ e.expanded.toList ++ e.pending
  nodup : (e.expanded.toList ++ e.pending).Nodup
  seeded : ∀ f ∈ seeds, f ∈ e.store
  closed : ∀ f ∈ e.expanded.toList, ∀ g ∈ step f, g ∈ e.store
  sound : ∀ f ∈ e.store, f ∈ reached step seeds
  complete : e.store.complete = true
  afforded : Affords allows e.expanded.size

theorem mem_discover {e : Exploration} {fs : List Fact} {g : Fact} :
    g ∈ (e.discover fs).store ↔ g ∈ e.store ∨ g ∈ fs := FactStore.mem_addNew

/-- Discovering facts keeps stored and listed facts the same and lists none twice. -/
theorem discover_listed (e : Exploration) (known fs : List Fact)
    (hmem : ∀ f, f ∈ e.store ↔ f ∈ known ++ e.pending) (hnodup : (known ++ e.pending).Nodup) :
    (∀ f, f ∈ (e.discover fs).store ↔ f ∈ known ++ (e.discover fs).pending) ∧
      (known ++ (e.discover fs).pending).Nodup := by
  have hpending : (e.discover fs).pending = e.pending ++ (e.store.addNew fs).2 := rfl
  rw [hpending, ← List.append_assoc]
  constructor
  · intro f
    rw [mem_discover, List.mem_append, ← hmem, FactStore.mem_addNew_fresh]
    by_cases hf : f ∈ e.store <;> simp [hf]
  · refine List.nodup_append'.2 ⟨hnodup, FactStore.nodup_addNew_fresh _ _, ?_⟩
    intro f hknown hfresh
    exact (FactStore.mem_addNew_fresh.1 hfresh).1 ((hmem f).2 hknown)

theorem invariant_start (step : Fact → List Fact) (allows : Nat → Bool) (seeds : List Fact) :
    (start seeds).Invariant step allows seeds := by
  obtain ⟨hmem, hnodup⟩ := discover_listed ⟨.empty, [], #[]⟩ [] seeds
    (by simp [FactStore.not_mem_empty]) (by simp)
  refine ⟨hmem, hnodup, fun f hf => mem_discover.2 (.inr hf), ?_, fun f hf => ?_, ?_, ?_⟩
  · intro f hf
    simp [start, discover] at hf
  · rcases mem_discover.1 hf with hf | hf
    · exact absurd hf (FactStore.not_mem_empty f)
    · exact Reaches.seed hf
  · exact FactStore.complete_addNew _ _
  · intro n h0 hn
    simp [start, discover] at hn
    omega

theorem Invariant.expand {e : Exploration} {f : Fact} {rest : List Fact}
    (he : e.Invariant step allows seeds) (hp : e.pending = f :: rest)
    (ha : allows (e.expanded.size + 1) = true) :
    (e.expand step f rest).Invariant step allows seeds := by
  have hf : f ∈ e.store := by
    rw [he.mem_store, hp]
    simp
  have hlist : (e.expanded.push f).toList ++ rest = e.expanded.toList ++ e.pending := by
    simp [hp]
  obtain ⟨hmem, hnodup⟩ := discover_listed
    { e with pending := rest, expanded := e.expanded.push f } (e.expanded.push f).toList (step f)
    (by rw [hlist]; exact he.mem_store) (by rw [hlist]; exact he.nodup)
  refine ⟨hmem, hnodup, fun g hg => mem_discover.2 (.inl (he.seeded g hg)), ?_, ?_, ?_, ?_⟩
  · intro g hg h hh
    rcases List.mem_append.1 (Array.toList_push ▸ hg : g ∈ e.expanded.toList ++ [f]) with hg | hg
    · exact mem_discover.2 (.inl (he.closed g hg h hh))
    · rw [List.mem_singleton.1 hg] at hh
      exact mem_discover.2 (.inr hh)
  · intro g hg
    rcases mem_discover.1 hg with hg | hg
    · exact he.sound g hg
    · exact Reaches.step (he.sound f hf) hg
  · exact (FactStore.complete_addNew _ _).trans he.complete
  · intro n h0 hn
    have hsize : (e.expand step f rest).expanded.size = e.expanded.size + 1 := by
      simp [Exploration.expand, discover]
    by_cases hlast : n = e.expanded.size + 1
    · rw [hlast, ha]
    · exact he.afforded n h0 (by omega)

theorem Invariant.run {e : Exploration} (he : e.Invariant step allows seeds) (fuel : Nat) :
    (run step allows fuel e).Invariant step allows seeds := by
  induction fuel generalizing e with
  | zero => exact he
  | succ fuel ih =>
    rw [Exploration.run]
    split
    · exact he
    · next f rest hp =>
      split
      · next ha => exact ih (he.expand hp ha)
      · exact he

/-- A run that is not settled has used its fuel up. -/
theorem run_isSettled_or (step : Fact → List Fact) (allows : Nat → Bool) (fuel : Nat)
    (e : Exploration) : (run step allows fuel e).isSettled allows = true ∨
      (run step allows fuel e).expanded.size = e.expanded.size + fuel := by
  induction fuel generalizing e with
  | zero => exact .inr rfl
  | succ fuel ih =>
    by_cases hset : e.isSettled allows = true
    · exact .inl ((run_of_isSettled hset _).symm ▸ hset)
    · cases hp : e.pending with
      | nil => simp [isSettled, hp] at hset
      | cons f rest =>
        have ha : allows (e.expanded.size + 1) = true := by simpa [isSettled, hp] using hset
        have hsize : (e.expand step f rest).expanded.size = e.expanded.size + 1 := by
          simp [expand, discover]
        simp only [run, hp, ha, if_true]
        rcases ih (e.expand step f rest) with h | h
        · exact .inl h
        · exact .inr (by rw [h, hsize]; omega)

section

variable {cover : List Fact} {rounds : Nat}
  (hcover : ∀ f ∈ reached step seeds, f ∈ cover) (hroom : cover.length ≤ totalFuel rounds 1)
include hcover

theorem Invariant.length_le {e : Exploration} (he : e.Invariant step allows seeds) :
    e.expanded.size + e.pending.length ≤ (reached step seeds).ncard := by
  have h := length_le_ncard he.nodup (fun f hf => he.sound f ((he.mem_store f).2 hf)) hcover
  simpa using h

theorem ncard_reached_le : (reached step seeds).ncard ≤ cover.length := by
  have hsub : reached step seeds ⊆ (cover.toFinset : Set Fact) := fun f hf => by
    simpa using hcover f hf
  calc (reached step seeds).ncard ≤ (cover.toFinset : Set Fact).ncard :=
        Set.ncard_le_ncard hsub cover.toFinset.finite_toSet
    _ = cover.toFinset.card := Set.ncard_coe_finset _
    _ ≤ cover.length := List.toFinset_card_le cover

include hroom

/-- With room for all facts an exploration ends because nothing waits or the limits refuse. -/
theorem explore_settles (allows : Nat → Bool) :
    ∃ e : Exploration, e.Invariant step allows seeds ∧
      (e.pending = [] ∨ allows (e.expanded.size + 1) = false) ∧
      explore step allows rounds seeds = e.finish := by
  have hinv := (invariant_start step allows seeds).run (totalFuel rounds 1)
  refine ⟨_, hinv, ?_, explore_eq_run step allows rounds seeds⟩
  rcases run_isSettled_or step allows (totalFuel rounds 1) (start seeds) with h | h
  · simpa [isSettled] using h
  · have hle := hinv.length_le hcover
    have hcard := ncard_reached_le hcover
    have hnone : (run step allows (totalFuel rounds 1) (start seeds)).pending.length = 0 := by
      omega
    exact .inl (List.length_eq_zero_iff.1 hnone)

end

/-- When nothing waits any more, everything reached has been expanded. -/
theorem Invariant.mem_expanded {e : Exploration} (he : e.Invariant step allows seeds)
    (hp : e.pending = []) (f : Fact) : f ∈ e.expanded.toList ↔ f ∈ reached step seeds := by
  have hstore : ∀ g, g ∈ e.store ↔ g ∈ e.expanded.toList := by
    intro g
    rw [he.mem_store, hp, List.append_nil]
  constructor
  · exact fun hf => he.sound f ((hstore f).2 hf)
  · have hclosed : {g | g ∈ e.expanded.toList} ∈ closedSets step seeds :=
      ⟨fun g hg => (hstore g).1 (he.seeded g hg),
        fun g hg h hh => (hstore h).1 (he.closed g hg h hh)⟩
    exact fun hf => (isLeast_reached step seeds).2 hclosed hf

/-- What an exploration from the seeds has come to in the end. -/
structure Outcome (step : Fact → List Fact) (allows : Nat → Bool) (seeds : List Fact)
    (e : Exploration) : Prop where
  complete_iff : e.store.complete = true ↔ Affords allows (reached step seeds).ncard
  seeded : ∀ f ∈ seeds, f ∈ e.store
  stored_reached : ∀ f ∈ e.store, f ∈ reached step seeds
  expanded_reached : ∀ f ∈ e.expanded.toList, f ∈ reached step seeds
  reached_stored : e.store.complete = true → ∀ f ∈ reached step seeds, f ∈ e.store
  reached_expanded : e.store.complete = true →
    ∀ f ∈ reached step seeds, f ∈ e.expanded.toList

theorem Invariant.outcome_of_drained {e : Exploration} (he : e.Invariant step allows seeds)
    (hp : e.pending = []) : e.finish.Outcome step allows seeds := by
  have hfinish : e.finish = e := by simp [finish, hp]
  have hmem := he.mem_expanded hp
  have hstored : ∀ f, f ∈ e.expanded.toList → f ∈ e.store := fun f hf =>
    (he.mem_store f).2 (List.mem_append_left _ hf)
  have hcard : (reached step seeds).ncard = e.expanded.size := by
    rw [ncard_eq_length (List.nodup_append'.1 he.nodup).1 hmem, Array.length_toList]
  rw [hfinish]
  refine ⟨?_, he.seeded, he.sound, fun f hf => (hmem f).1 hf, ?_, ?_⟩
  · rw [hcard]
    exact iff_of_true he.complete he.afforded
  · exact fun _ f hf => hstored f ((hmem f).2 hf)
  · exact fun _ f hf => (hmem f).2 hf

theorem Invariant.outcome_of_refused {cover : List Fact} {e : Exploration}
    (hcover : ∀ f ∈ reached step seeds, f ∈ cover) (he : e.Invariant step allows seeds)
    (hp : e.pending ≠ []) (ha : allows (e.expanded.size + 1) = false) :
    e.finish.Outcome step allows seeds := by
  have hfinish : e.finish = e.cutShort := by simp [finish, hp]
  have hincomplete : e.cutShort.store.complete ≠ true := Bool.false_ne_true
  have hlen := he.length_le hcover
  have hpos := List.length_pos_iff.2 hp
  rw [hfinish]
  refine ⟨iff_of_false hincomplete fun hafford => ?_, he.seeded, he.sound, ?_, ?_, ?_⟩
  · have := hafford (e.expanded.size + 1) (by omega) (by omega)
    rw [ha] at this
    cases this
  · exact fun f hf => he.sound f ((he.mem_store f).2 (List.mem_append_left _ hf))
  · exact fun h => absurd h hincomplete
  · exact fun h => absurd h hincomplete

/-- An exploration with room for all facts. -/
theorem outcome_explore {cover : List Fact} {rounds : Nat}
    (hcover : ∀ f ∈ reached step seeds, f ∈ cover) (hroom : cover.length ≤ totalFuel rounds 1)
    (allows : Nat → Bool) : (explore step allows rounds seeds).Outcome step allows seeds := by
  obtain ⟨e, he, hend, heq⟩ := explore_settles hcover hroom allows
  rw [heq]
  by_cases hp : e.pending = []
  · exact he.outcome_of_drained hp
  · exact he.outcome_of_refused hcover hp (hend.resolve_left hp)

end Exploration

end GuidedDataflow
