import Mathlib.Data.List.ProdSigma
import GuidedDataflow.Proofs.FactBound
import GuidedDataflow.Proofs.Flow.Steps
import GuidedDataflow.Proofs.Query.CallString
import GuidedDataflow.Proofs.Solver.Saturation
import GuidedDataflow.Solver.Session

/-!
A list of all facts that steps can lead to from a cell under seeds, as long as the bound on
facts says. Each step keeps to control-flow edges, to values of the program and to call
strings over known sites, so an exploration never runs out of rounds.
-/

namespace GuidedDataflow

/-- All strings over the sites with at most so many letters. -/
def strings (sites : List StmtId) : Nat → List (List StmtId)
  | 0 => [[]]
  | depth + 1 => [] :: sites.flatMap fun s => (strings sites depth).map (s :: ·)

theorem length_strings (sites : List StmtId) (depth : Nat) :
    (strings sites depth).length = stringCount sites.length depth := by
  induction depth with
  | zero => rfl
  | succ depth ih =>
    simp only [strings, List.length_cons, List.length_flatMap, List.length_map, ih,
      List.map_const', List.sum_replicate_nat, stringCount]
    omega

theorem mem_strings {sites l : List StmtId} {depth : Nat} :
    l ∈ strings sites depth ↔ l.length ≤ depth ∧ ∀ s ∈ l, s ∈ sites := by
  induction depth generalizing l with
  | zero => cases l <;> simp [strings]
  | succ depth ih =>
    cases l with
    | nil => simp [strings]
    | cons s l =>
      simp only [strings, List.mem_cons, List.mem_flatMap, List.mem_map, ih, reduceCtorEq,
        false_or, List.cons.injEq, List.length_cons, Nat.add_le_add_iff_right,
        forall_eq_or_imp]
      constructor
      · rintro ⟨_, hs, _, ⟨hlen, hl⟩, rfl, rfl⟩
        exact ⟨hlen, hs, hl⟩
      · rintro ⟨hlen, hs, hl⟩
        exact ⟨s, hs, l, ⟨hlen, hl⟩, rfl, rfl⟩

/-- The sites that call strings are built from: the program's calls and those in the seeds. -/
def knownSites (p : Program) (seeds : Seeds) : List StmtId :=
  p.calls ++ seeds.toList.flatMap CallString.sites

/-- Where the facts reached from a cell can lie. -/
structure Fact.Within (f : Fact) (p : Program) (depth : Nat) (c : Cell) (seeds : Seeds) : Prop where
  edge : f.edge ∈ c.edge :: p.edges
  value : f.value ∈ c.value :: p.values
  depth_le : f.context.depth ≤ max depth (longest seeds)
  sites : ∀ s ∈ f.context.sites, s ∈ knownSites p seeds

def factCover (p : Program) (depth : Nat) (c : Cell) (seeds : Seeds) : List Fact :=
  ((c.edge :: p.edges) ×ˢ (c.value :: p.values) ×ˢ
    strings (knownSites p seeds) (max depth (longest seeds))).map fun t => ⟨t.1, t.2.1, ⟨t.2.2⟩⟩

/-- The facts over the listed edges, values and sites, under strings of so many sites at most. -/
def factsOver (edges : List Edge) (values : List Value) (sites : List StmtId) (depth : Nat) :
    List Fact :=
  (edges ×ˢ values ×ˢ strings sites depth).map fun t => ⟨t.1, t.2.1, ⟨t.2.2⟩⟩

section FactsOver

variable {edges : List Edge} {values : List Value} {sites : List StmtId} {depth : Nat}

theorem length_factsOver : (factsOver edges values sites depth).length =
    edges.length * values.length * stringCount sites.length depth := by
  simp only [factsOver, List.length_map, List.length_product, length_strings, Nat.mul_assoc]

theorem mem_factsOver {f : Fact} : f ∈ factsOver edges values sites depth ↔
    f.edge ∈ edges ∧ f.value ∈ values ∧ f.context.depth ≤ depth ∧
      ∀ s ∈ f.context.sites, s ∈ sites := by
  obtain ⟨e, v, ⟨string⟩⟩ := f
  simp only [factsOver, List.mem_map, Fact.mk.injEq, CallString.mk.injEq, Prod.exists,
    List.mem_product, mem_strings]
  constructor
  · rintro ⟨_, _, _, ⟨he, hv, hlen, hs⟩, rfl, rfl, rfl⟩
    exact ⟨he, hv, hlen, hs⟩
  · rintro ⟨he, hv, hlen, hs⟩
    exact ⟨_, _, _, ⟨he, hv, hlen, hs⟩, rfl, rfl, rfl⟩

end FactsOver

theorem factCover_eq (p : Program) (depth : Nat) (c : Cell) (seeds : Seeds) :
    factCover p depth c seeds = factsOver (c.edge :: p.edges) (c.value :: p.values)
      (knownSites p seeds) (max depth (longest seeds)) := rfl

theorem length_factCover (p : Program) (depth : Nat) (c : Cell) (seeds : Seeds) :
    (factCover p depth c seeds).length = factBound p depth seeds := by
  rw [factCover_eq, length_factsOver]
  simp only [List.length_cons, factBound, siteCount, knownSites, List.length_append]

theorem mem_factCover {f : Fact} {p : Program} {depth : Nat} {c : Cell} {seeds : Seeds} :
    f ∈ factCover p depth c seeds ↔ f.Within p depth c seeds := by
  rw [factCover_eq, mem_factsOver]
  constructor
  · rintro ⟨he, hv, hdepth, hs⟩
    exact ⟨he, hv, hdepth, hs⟩
  · rintro ⟨he, hv, hdepth, hs⟩
    exact ⟨he, hv, hdepth, hs⟩

theorem depth_le_longest {seeds : Seeds} {context : CallString} (h : context ∈ seeds) :
    context.depth ≤ longest seeds := by
  have key : ∀ (l : List CallString) (start : Nat), start ≤ l.foldl (fun d c => max d c.depth) start ∧
      ∀ c ∈ l, c.depth ≤ l.foldl (fun d c => max d c.depth) start := by
    intro l
    induction l with
    | nil => simp
    | cons a l ih =>
      intro start
      obtain ⟨hstart, hmem⟩ := ih (max start a.depth)
      refine ⟨(Nat.le_max_left _ _).trans hstart, fun c hc => ?_⟩
      rcases List.mem_cons.1 hc with rfl | hc
      · exact (Nat.le_max_right _ _).trans hstart
      · exact hmem c hc
  exact (key seeds.toList 0).2 context h

namespace Statement

variable {s : Statement} {v : Value}

theorem mem_values_of_assigned (h : s.assigned? = some v) : v ∈ s.values := by
  unfold assigned? at h
  unfold values
  cases ha : s.action <;> simp_all

theorem mem_values_of_left (h : s.left? = some v) : v ∈ s.values := by
  unfold left? at h
  unfold values
  cases ha : s.action <;> simp_all

theorem mem_values_of_right (h : s.right? = some v) : v ∈ s.values := by
  unfold right? at h
  unfold values
  cases ha : s.action <;> simp_all

theorem mem_values_of_returned (h : s.returned? = some v) : v ∈ s.values := by
  unfold returned? at h
  unfold values
  cases ha : s.action <;> simp_all

theorem mem_values_of_actual {call : Call} {formal : Formal} (hcall : s.call? = some call)
    (h : call.actual? formal = some v) : v ∈ s.values := by
  have hmem : v ∈ call.receiver.toList ++ call.args := by
    cases formal with
    | this => simp_all [Call.actual?]
    | parameter i => exact List.mem_append_right _ (List.mem_of_getElem? h)
  unfold call? at hcall
  unfold values
  cases ha : s.action <;> simp_all

end Statement

namespace Program

variable {p : Program}

theorem mem_values {id : StmtId} {s : Statement} {v : Value} (hs : p.statement? id = some s)
    (hv : v ∈ s.values) : v ∈ p.values :=
  List.mem_flatMap.2 ⟨s, mem_of_statement? hs, hv⟩

theorem WellFormed.mem_calls {id : StmtId} {s : Statement} {result : Option Value} {call : Call}
    (hp : p.WellFormed) (hs : p.statement? id = some s) (ha : s.action = .invoke result call) :
    id ∈ p.calls := by
  refine List.mem_map.2 ⟨s, List.mem_filter.2 ⟨mem_of_statement? hs, ?_⟩, hp.id_eq id s hs⟩
  simp [Statement.isCall, Statement.call?, ha]

end Program

namespace Fact.Within

variable {p : Program} {depth : Nat} {c : Cell} {seeds : Seeds} {f g : Fact}

theorem ofCell {context : CallString} (h : context ∈ seeds) :
    (Fact.ofCell c context).Within p depth c seeds where
  edge := List.mem_cons_self
  value := List.mem_cons_self
  depth_le := (depth_le_longest h).trans (Nat.le_max_right _ _)
  sites _ hs := List.mem_append_right _ (List.mem_flatMap.2 ⟨context, h, hs⟩)

theorem entered (hf : f.Within p depth c seeds) (hp : p.WellFormed) {id : StmtId} {s : Statement}
    {result : Option Value} {call : Call} {e : Edge} {v : Value} (hs : p.statement? id = some s)
    (ha : s.action = .invoke result call) (he : e ∈ p.edges) (hv : v ∈ p.values) :
    Fact.Within ⟨e, v, f.context.pushBounded id depth⟩ p depth c seeds where
  edge := List.mem_cons_of_mem _ he
  value := List.mem_cons_of_mem _ hv
  depth_le := (CallString.depth_pushBounded_le _ _ _).trans (Nat.le_max_left _ _)
  sites s hmem := by
    rcases CallString.mem_pushBounded hmem with h | rfl
    · exact hf.sites s h
    · exact List.mem_append_left _ (hp.mem_calls hs ha)

theorem left (hf : f.Within p depth c seeds) {method : Signature} {site : StmtId}
    {caller : CallString} {e : Edge} {v : Value}
    (hr : (site, caller) ∈ Flow.returnSites p method f.context) (he : e ∈ p.edges)
    (hv : v ∈ p.values) : Fact.Within ⟨e, v, caller⟩ p depth c seeds := by
  have hsub : caller.depth ≤ f.context.depth ∧ ∀ s ∈ caller.sites, s ∈ f.context.sites := by
    rcases Flow.mem_returnSites.1 hr with h | ⟨-, rfl, -⟩
    · rw [h]
      constructor
      · simp [CallString.push, CallString.depth]
      · exact fun s hs => List.mem_append_left _ hs
    · simp [CallString.empty, CallString.depth]
  exact ⟨List.mem_cons_of_mem _ he, List.mem_cons_of_mem _ hv, hsub.1.trans hf.depth_le,
    fun s hs => hf.sites s (hsub.2 s hs)⟩

theorem moved (hf : f.Within p depth c seeds) {e : Edge} {v : Value} (he : e ∈ p.edges)
    (hv : v ∈ p.values ∨ v = f.value) : Fact.Within ⟨e, v, f.context⟩ p depth c seeds := by
  refine ⟨List.mem_cons_of_mem _ he, ?_, hf.depth_le, hf.sites⟩
  rcases hv with hv | rfl
  · exact List.mem_cons_of_mem _ hv
  · exact hf.value

theorem forward (hf : f.Within p depth c seeds) (hp : p.WellFormed)
    (h : g ∈ Flow.forward p depth f) : g.Within p depth c seeds := by
  cases Flow.mem_forward.1 h with
  | within hs hcarries he =>
    refine hf.moved (hp.mem_succEdges_iff.1 he).1 ?_
    rcases Statement.eq_or_assigned_of_carries hcarries with rfl | hassigned
    · exact .inr rfl
    · exact .inl (Program.mem_values hs (Statement.mem_values_of_assigned hassigned))
  | enter hs ha _ _ _ ht hta he =>
    exact hf.entered hp hs ha (hp.mem_succEdges_iff.1 he).1
      (Program.mem_values ht (Statement.mem_values_of_assigned (Statement.assigned?_identity hta)))
  | leave _ _ hr ht hleft he =>
    exact hf.left hr (hp.mem_succEdges_iff.1 he).1
      (Program.mem_values ht (Statement.mem_values_of_left hleft))

theorem backward (hf : f.Within p depth c seeds) (hp : p.WellFormed)
    (h : g ∈ Flow.backward p depth f) : g.Within p depth c seeds := by
  cases Flow.mem_backward.1 h with
  | within hs hrecalls he =>
    refine hf.moved (hp.mem_predEdges_iff.1 he).1 ?_
    rcases Statement.eq_or_right_of_recalls hrecalls with rfl | ⟨hright, -⟩
    · exact .inr rfl
    · exact .inl (Program.mem_values hs (Statement.mem_values_of_right hright))
  | enter hs ha _ _ ht hreturned _ he =>
    exact hf.entered hp hs ha (hp.mem_predEdges_iff.1 he).1
      (Program.mem_values ht (Statement.mem_values_of_returned hreturned))
  | leave _ _ hr ht hcall hactual _ he =>
    exact hf.left hr (hp.mem_predEdges_iff.1 he).1
      (Program.mem_values ht (Statement.mem_values_of_actual hcall hactual))

end Fact.Within

/-- Whatever steps lead to is in the cover. -/
theorem mem_factCover_of_reached {p : Program} (hp : p.WellFormed) (depth : Nat) (d : Direction)
    (c : Cell) (seeds : Seeds) (f : Fact)
    (h : f ∈ reached (Flow.step p depth d) (Session.seedFacts c seeds)) :
    f ∈ factCover p depth c seeds := by
  rw [mem_factCover]
  induction h with
  | seed hf =>
    obtain ⟨context, hcontext, rfl⟩ := List.mem_map.1 hf
    exact Fact.Within.ofCell hcontext
  | step _ hg ih =>
    cases d with
    | forward => exact ih.forward hp hg
    | backward => exact ih.backward hp hg

/-- An exploration with as many rounds as the bound asks for. -/
theorem outcome_explore_step {p : Program} (hp : p.WellFormed) (depth : Nat) (d : Direction)
    (c : Cell) (seeds : Seeds) (allows : Nat → Bool) :
    (Exploration.explore (Flow.step p depth d) allows (factBits p depth seeds)
      (Session.seedFacts c seeds)).Outcome (Flow.step p depth d) allows
        (Session.seedFacts c seeds) :=
  Exploration.outcome_explore (mem_factCover_of_reached hp depth d c seeds)
    (by rw [length_factCover]; exact factBound_le_totalFuel p depth seeds) allows

end GuidedDataflow
