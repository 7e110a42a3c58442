import Mathlib.Data.Finset.Card
import GuidedDataflow.Guide.Provenance

/-!
What a provenance holds of the queries and edges recorded in it. Each query that was mentioned has
a number of its own, which it keeps, and each pair that was joined has one edge, with the trigger
that was recorded last. Children and parents are read off the edges, each of them once.
-/

namespace GuidedDataflow

namespace Provenance

section
variable (g : Provenance) (parent child : Query) (trigger : Cell)

@[simp] theorem edges_addQuery (q : Query) : (g.addQuery q).edges = g.edges := by
  unfold addQuery
  split <;> rfl

@[simp] theorem mem_queries_addQuery {q x : Query} :
    x ∈ (g.addQuery q).queries ↔ x ∈ g.queries ∨ x = q := by
  unfold addQuery contains
  split
  · next hold => exact ⟨.inl, fun h => h.elim id fun heq => heq ▸ List.contains_iff_mem.1 hold⟩
  · rw [List.mem_append, List.mem_singleton]

theorem queries_addEdge : (g.addEdge parent child trigger).queries =
    ((g.addQuery parent).addQuery child).queries := by
  simp only [addEdge]
  split <;> rfl

theorem mem_queries_addEdge {x : Query} : x ∈ (g.addEdge parent child trigger).queries ↔
    x ∈ g.queries ∨ x = parent ∨ x = child := by
  rw [queries_addEdge, mem_queries_addQuery, mem_queries_addQuery, or_assoc]

variable {g parent child} in
theorem edges_addEdge_of_new (h : ∀ e ∈ g.edges, ¬ (e.parent = parent ∧ e.child = child)) :
    (g.addEdge parent child trigger).edges = g.edges ++ [⟨parent, child, trigger⟩] := by
  have hnone : (((g.addQuery parent).addQuery child).edges.any (·.joins parent child)) = false := by
    simpa [List.any_eq_false, ProvenanceEdge.joins] using h
  unfold addEdge
  rw [if_neg (Bool.eq_false_iff.1 hnone), edges_addQuery, edges_addQuery]

variable {g parent child} in
theorem edges_addEdge_of_old (h : ∃ e ∈ g.edges, e.parent = parent ∧ e.child = child) :
    (g.addEdge parent child trigger).edges =
      g.edges.map fun e => if e.joins parent child then { e with trigger } else e := by
  have hsome : (((g.addQuery parent).addQuery child).edges.any (·.joins parent child)) = true := by
    simpa [List.any_eq_true, ProvenanceEdge.joins] using h
  unfold addEdge
  rw [if_pos hsome, edges_addQuery, edges_addQuery]

end

/-- What can be recorded. -/
inductive Recording where
  | query (q : Query)
  | edge (parent child : Query) (trigger : Cell)
deriving DecidableEq, Repr

namespace Recording

/-- The queries that are mentioned. -/
def queries : Recording → List Query
  | query q => [q]
  | edge parent child _ => [parent, child]

/-- The pair that is joined. -/
def pair? : Recording → Option (Query × Query)
  | query _ => none
  | edge parent child _ => some (parent, child)

/-- The trigger that is recorded for the pair. -/
def trigger? (parent child : Query) : Recording → Option Cell
  | query _ => none
  | edge p c trigger => if p = parent ∧ c = child then some trigger else none

theorem isSome_trigger? {r : Recording} {parent child : Query} :
    (r.trigger? parent child).isSome = true ↔ r.pair? = some (parent, child) := by
  cases r with
  | query q => simp [trigger?, pair?]
  | edge p c trigger => by_cases h : p = parent ∧ c = child <;> simp [trigger?, pair?, h]

end Recording

def record (g : Provenance) : Recording → Provenance
  | .query q => g.addQuery q
  | .edge parent child trigger => g.addEdge parent child trigger

def recordAll (g : Provenance) (rs : List Recording) : Provenance := rs.foldl record g

/-- The queries mentioned in the recordings. -/
def mentioned (rs : List Recording) : List Query := rs.flatMap Recording.queries

/-- The pairs joined by the recordings. -/
def pairs (rs : List Recording) : List (Query × Query) := rs.filterMap Recording.pair?

/-- The trigger that was recorded last for the pair. -/
def latest? (rs : List Recording) (parent child : Query) : Option Cell :=
  rs.reverse.findSome? (Recording.trigger? parent child)

theorem latest?_concat (rs : List Recording) (r : Recording) (parent child : Query) :
    latest? (rs ++ [r]) parent child =
      (r.trigger? parent child).or (latest? rs parent child) := by
  rw [latest?, List.reverse_append, List.findSome?_append]
  simp [latest?]

theorem isSome_latest? {rs : List Recording} {parent child : Query} :
    (latest? rs parent child).isSome = true ↔ (parent, child) ∈ pairs rs := by
  simp only [latest?, List.findSome?_isSome_iff, List.mem_reverse, Recording.isSome_trigger?,
    pairs, List.mem_filterMap]

section
variable (g : Provenance)

theorem queries_prefix_addQuery (q : Query) : g.queries <+: (g.addQuery q).queries := by
  unfold addQuery
  split
  · exact List.prefix_rfl
  · exact List.prefix_append _ _

theorem queries_prefix_record (r : Recording) : g.queries <+: (g.record r).queries := by
  cases r with
  | query q => exact g.queries_prefix_addQuery q
  | edge parent child trigger =>
    rw [record, queries_addEdge]
    exact (g.queries_prefix_addQuery parent).trans (queries_prefix_addQuery _ child)

/-- Numbers are given out in order and none is taken back. -/
theorem queries_prefix_recordAll (rs : List Recording) : g.queries <+: (g.recordAll rs).queries := by
  induction rs generalizing g with
  | nil => exact List.prefix_rfl
  | cons r rs ih => exact (g.queries_prefix_record r).trans (ih _)

theorem exists_index?_addQuery (q : Query) : ∃ i, (g.addQuery q).index? q = some i := by
  have hmem : q ∈ (g.addQuery q).queries := (mem_queries_addQuery g).2 (.inr rfl)
  refine Option.ne_none_iff_exists'.1 fun hnone => ?_
  exact List.idxOf?_eq_none_iff.1 hnone hmem

variable {g} in
theorem index?_recordAll {q : Query} {i : Nat} (h : g.index? q = some i) (rs : List Recording) :
    (g.recordAll rs).index? q = some i :=
  (g.queries_prefix_recordAll rs).findIdx?_eq_some h

variable {g} in
/-- Without repetitions the number of a query is its place. -/
theorem index?_eq_some_iff (h : g.queries.Nodup) {q : Query} {i : Nat} :
    g.index? q = some i ↔ g.queries[i]? = some q := by
  rw [index?, List.idxOf?_eq_some_iff, List.getElem?_eq_some_iff]
  refine exists_congr fun hi => and_iff_left_of_imp ?_
  intro hq j hj heq
  exact Nat.ne_of_lt hj (h.getElem_inj_iff.1 (heq.trans hq.symm))

end

end Provenance

def ProvenanceEdge.pair (e : ProvenanceEdge) : Query × Query := (e.parent, e.child)

namespace Provenance

section
variable {g : Provenance} {parent child : Query} {trigger : Cell}

theorem nodup_addQuery (h : g.queries.Nodup) (q : Query) : (g.addQuery q).queries.Nodup := by
  unfold addQuery contains
  split
  · exact h
  · next hnew =>
    rw [List.contains_iff_mem] at hnew
    refine List.nodup_append.2 ⟨h, List.nodup_singleton q, fun x hx y hy heq => hnew ?_⟩
    rw [← List.mem_singleton.1 hy, ← heq]
    exact hx

/-- Of the pair that is joined the edge carries the new trigger, and no other edge changes. -/
theorem mem_edges_addEdge {e : ProvenanceEdge} : e ∈ (g.addEdge parent child trigger).edges ↔
    if e.parent = parent ∧ e.child = child then e.trigger = trigger else e ∈ g.edges := by
  by_cases hold : ∃ e ∈ g.edges, e.parent = parent ∧ e.child = child
  · rw [edges_addEdge_of_old trigger hold, List.mem_map]
    split
    · next hjoins =>
      constructor
      · rintro ⟨e', -, rfl⟩
        by_cases he' : e'.joins parent child = true
        · rw [if_pos he']
        · rw [if_neg he'] at hjoins
          exact absurd (by simpa [ProvenanceEdge.joins] using hjoins) he'
      · rintro rfl
        obtain ⟨e', he', hparent, hchild⟩ := hold
        have hjoins' : e'.joins parent child = true := by
          simp [ProvenanceEdge.joins, hparent, hchild]
        refine ⟨e', he', ?_⟩
        rw [if_pos hjoins', hparent, hchild, ← hjoins.1, ← hjoins.2]
    · next hother =>
      constructor
      · rintro ⟨e', he', rfl⟩
        by_cases hjoins : e'.joins parent child = true
        · rw [if_pos hjoins] at hother
          exact absurd (by simpa [ProvenanceEdge.joins] using hjoins) hother
        · rwa [if_neg hjoins]
      · intro he
        exact ⟨e, he, if_neg fun hjoins => hother (by simpa [ProvenanceEdge.joins] using hjoins)⟩
  · have hnew : ∀ e ∈ g.edges, ¬ (e.parent = parent ∧ e.child = child) := by simpa using hold
    rw [edges_addEdge_of_new trigger hnew, List.mem_append, List.mem_singleton]
    split
    · next hjoins =>
      rw [or_iff_right fun he => hnew e he hjoins]
      obtain ⟨rfl, rfl⟩ := hjoins
      exact ⟨fun he => congrArg ProvenanceEdge.trigger he, fun ht => ht ▸ rfl⟩
    · next hother =>
      exact or_iff_left fun he => hother (he ▸ ⟨rfl, rfl⟩)

theorem pairs_addEdge (h : (g.edges.map ProvenanceEdge.pair).Nodup) :
    ((g.addEdge parent child trigger).edges.map ProvenanceEdge.pair).Nodup := by
  by_cases hold : ∃ e ∈ g.edges, e.parent = parent ∧ e.child = child
  · have hsame : (g.addEdge parent child trigger).edges.map ProvenanceEdge.pair =
        g.edges.map ProvenanceEdge.pair := by
      rw [edges_addEdge_of_old trigger hold, List.map_map]
      refine List.map_congr_left fun e _ => ?_
      rw [Function.comp_apply]
      split <;> rfl
    rw [hsame]
    exact h
  · have hnew : ∀ e ∈ g.edges, ¬ (e.parent = parent ∧ e.child = child) := by simpa using hold
    rw [edges_addEdge_of_new trigger hnew, List.map_append]
    refine List.nodup_append.2 ⟨h, List.nodup_singleton _, fun x hx y hy heq => ?_⟩
    obtain ⟨e, he, rfl⟩ := List.mem_map.1 hx
    rw [List.mem_singleton.1 hy] at heq
    exact hnew e he (Prod.mk.inj heq)

end

/-- What the provenance says of the recordings. -/
structure Reflects (g : Provenance) (rs : List Recording) : Prop where
  queries : ∀ q, q ∈ g.queries ↔ q ∈ mentioned rs
  nodup : g.queries.Nodup
  edges : ∀ e, e ∈ g.edges ↔ latest? rs e.parent e.child = some e.trigger
  pairs : (g.edges.map ProvenanceEdge.pair).Nodup

namespace Reflects

variable {g : Provenance} {rs : List Recording}

theorem empty : Provenance.empty.Reflects [] :=
  ⟨fun _ => Iff.rfl, List.nodup_nil, fun _ => ⟨nofun, nofun⟩, List.nodup_nil⟩

theorem record (h : g.Reflects rs) (r : Recording) : (g.record r).Reflects (rs ++ [r]) := by
  have hmentioned : ∀ q, q ∈ mentioned (rs ++ [r]) ↔ q ∈ g.queries ∨ q ∈ r.queries := by
    intro q
    simp only [mentioned, List.flatMap_append, List.mem_append, List.flatMap_singleton, h.queries]
  cases r with
  | query q =>
    refine ⟨fun x => ?_, nodup_addQuery h.nodup q, fun e => ?_, ?_⟩
    · rw [hmentioned, Provenance.record, mem_queries_addQuery, Recording.queries,
        List.mem_singleton]
    · rw [latest?_concat, Provenance.record, edges_addQuery]
      exact h.edges e
    · rw [Provenance.record, edges_addQuery]
      exact h.pairs
  | edge parent child trigger =>
    refine ⟨fun x => ?_, ?_, fun e => ?_, pairs_addEdge h.pairs⟩
    · rw [hmentioned, Provenance.record, mem_queries_addEdge]
      simp only [Recording.queries, List.mem_cons, List.not_mem_nil, or_false]
    · rw [Provenance.record, queries_addEdge]
      exact nodup_addQuery (nodup_addQuery h.nodup parent) child
    · rw [latest?_concat, Provenance.record, mem_edges_addEdge, Recording.trigger?]
      simp only [eq_comm (a := parent), eq_comm (a := child)]
      split
      · rw [Option.some_or, Option.some.injEq, eq_comm]
      · rw [Option.none_or, h.edges]

theorem recordAll (h : g.Reflects rs) (later : List Recording) :
    (g.recordAll later).Reflects (rs ++ later) := by
  induction later generalizing g rs with
  | nil => exact (List.append_nil rs).symm ▸ h
  | cons r later ih =>
    have hlater := ih (h.record r)
    rw [List.append_assoc] at hlater
    exact hlater

theorem mem_pairs_iff (h : g.Reflects rs) {parent child : Query} :
    (parent, child) ∈ g.edges.map ProvenanceEdge.pair ↔ (parent, child) ∈ Provenance.pairs rs := by
  rw [← isSome_latest?, Option.isSome_iff_exists, List.mem_map]
  constructor
  · rintro ⟨e, he, heq⟩
    obtain ⟨rfl, rfl⟩ := Prod.mk.inj heq
    exact ⟨e.trigger, (h.edges e).1 he⟩
  · rintro ⟨trigger, hlatest⟩
    exact ⟨⟨parent, child, trigger⟩, (h.edges _).2 hlatest, rfl⟩

theorem mem_children (h : g.Reflects rs) {parent child : Query} :
    child ∈ g.children parent ↔ (parent, child) ∈ Provenance.pairs rs := by
  rw [← h.mem_pairs_iff, children, OrderedSet.mem_ofList]
  simp only [List.mem_map, List.mem_filter, decide_eq_true_eq, ProvenanceEdge.pair, Prod.mk.injEq,
    and_assoc]

theorem mem_parents (h : g.Reflects rs) {parent child : Query} :
    parent ∈ g.parents child ↔ (parent, child) ∈ Provenance.pairs rs := by
  rw [← h.mem_pairs_iff, parents, OrderedSet.mem_ofList]
  simp only [List.mem_map, List.mem_filter, decide_eq_true_eq, ProvenanceEdge.pair, Prod.mk.injEq,
    and_assoc]
  exact exists_congr fun e => and_congr_right fun _ => and_comm

/-- The children are those of the edges, in increasing order. -/
theorem children_perm (h : g.Reflects rs) (parent : Query) : (g.children parent).toList.Perm
    ((g.edges.filter (·.parent = parent)).map ProvenanceEdge.child) := by
  refine (List.perm_ext_iff_of_nodup (OrderedSet.nodup_toList _) ?_).2 fun q =>
    OrderedSet.mem_ofList
  have hpairs : ((g.edges.filter (·.parent = parent)).map ProvenanceEdge.pair).Nodup :=
    h.pairs.sublist (List.filter_sublist.map _)
  rw [List.Nodup, List.pairwise_map] at hpairs ⊢
  refine hpairs.imp_of_mem fun {a b} ha hb hne heq => hne ?_
  have haparent : a.parent = parent := of_decide_eq_true (List.mem_filter.1 ha).2
  have hbparent : b.parent = parent := of_decide_eq_true (List.mem_filter.1 hb).2
  rw [ProvenanceEdge.pair, ProvenanceEdge.pair, haparent, hbparent, heq]

end Reflects

end Provenance

end GuidedDataflow
